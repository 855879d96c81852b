import HatP.Lib.Enumeration
import HatP.Tables.TableScan

/-!
# Partitions of a table scan

The first partition is the newest of what the memtable and level 0 hold; each
further one is what a file of the deeper levels holds.  The partitions are never
merged with each other, so they list a table exactly when their sources do not
disagree about it.
-/

namespace HatP

open Transition

/-! ## What the sources show -/

theorem tablePrefix_prefix_iff {table key : Bytes} :
    tablePrefix table <+: key ↔
      tablePrefix table ≤ key ∧ key < prefixUpperExclusive (tablePrefix table) := by
  rw [← inPrefixRange_tablePrefix, inPrefixRange, Bool.and_eq_true, decide_eq_true_eq,
    decide_eq_true_eq]

theorem MemTable.scanPrefixVersions_eq (table : MemTable) (name : Bytes) (s : ℕ) :
    table.scanPrefixVersions (tablePrefix name) s =
      table.scanRangeVersions (tablePrefix name) (prefixUpperExclusive (tablePrefix name)) s := by
  refine List.filterMap_congr fun entry _ ↦ ?_
  have hcond : (inPrefixRange (tablePrefix name) entry.1 &&
      (tablePrefix name).isPrefixOf entry.1) = true ↔ tablePrefix name ≤ entry.1 ∧
        entry.1 < prefixUpperExclusive (tablePrefix name) := by
    rw [Bool.and_eq_true, inPrefixRange_tablePrefix, List.isPrefixOf_iff_prefix, and_self,
      tablePrefix_prefix_iff]
  simp only [hcond]

namespace Engine

variable {source : Option ℕ} {p : ℕ × Option Bytes}

variable {e : Engine} {i s : ℕ} {table key : Bytes} {x : VersionedValue}
  {entries : List (Bytes × ℕ × Option Bytes)}

theorem isDroppedPrefix_of_table (h : tablePrefix table <+: key) :
    e.isDroppedPrefix key = e.isDroppedPrefix (tablePrefix table) := by
  rw [isDroppedPrefix, isDroppedPrefix, keyTablePrefix_of_table h]

def upperRows (e : Engine) (table : Bytes) : List VersionedRow :=
  e.memtable.scanPrefixVersions (tablePrefix table) e.snapshotTs ++
    (e.versionSet.files 0).flatMap (e.fileRows table)

theorem mem_upperRows (h : e.Inv) (hdropped : e.isDroppedPrefix (tablePrefix table) = false) :
    ⟨key, x⟩ ∈ e.upperRows table ↔ tablePrefix table <+: key ∧
      e.ShowsIn (· ∈ e.versionSet.files 0) key e.snapshotTs x := by
  rw [upperRows, List.mem_append, MemTable.scanPrefixVersions_eq,
    mem_scanRangeVersions h.memtable_tiled, List.mem_flatMap]
  simp only [mem_scanRows, ← tablePrefix_prefix_iff]
  constructor
  · rintro (⟨hunder, hsees, hmem⟩ | ⟨i, hi, hunder, hsees, hmem⟩)
    · exact ⟨hunder, hsees, .inl hmem⟩
    · exact ⟨hunder, hsees, .inr ⟨isDroppedPrefix_of_table hunder ▸ hdropped, i, hi, hmem⟩⟩
  · rintro ⟨hunder, hsees, hmem | ⟨-, i, hi, hmem⟩⟩
    · exact .inl ⟨hunder, hsees, hmem⟩
    · exact .inr ⟨i, hi, hunder, hsees, hmem⟩

section Merged

variable {σ : Type*} [PartialOrder σ] [DecidableEq σ] [DecidableLT σ] [DecidableLE σ]

def mergedRows (e : Engine) (vortex : VortexScan σ) (stats : ℕ → Option (TableColumnStats σ))
    (schema : TableSchema σ) (table : Bytes)
    (predicates : Option (List (String × ColumnPredicate σ))) : List VersionedRow :=
  e.memtable.scanPrefixVersions (tablePrefix table) e.snapshotTs ++
    if e.isDroppedPrefix (tablePrefix table) then []
    else (e.versionSet.files 0).flatMap fun fileId ↦
      if predicates.any (skipFileByColumnStats (stats fileId)) then []
      else (e.fileScan vortex schema table (predicates.getD []) fileId).filter
          fun row ↦ !e.isDroppedPrefix row.key

theorem mergedVisible_eq (e : Engine) (vortex : VortexScan σ)
    (stats : ℕ → Option (TableColumnStats σ)) (schema : TableSchema σ) (table : Bytes)
    (predicates : Option (List (String × ColumnPredicate σ))) :
    e.mergedVisible vortex stats schema table predicates =
      newestRows (e.mergedRows vortex stats schema table predicates) := by
  rw [newestRows, Newest.merged, ← foldl_insertNewest, mergedRows, List.foldl_append, mergedVisible]
  split
  · rfl
  · rw [List.foldl_flatMap]
    congr 1
    funext visible fileId
    split
    · rfl
    · exact e.insertRows_eq visible _

theorem mem_mergedRows {vortex : VortexScan σ} {stats : ℕ → Option (TableColumnStats σ)}
    {schema : TableSchema σ} {predicates : Option (List (String × ColumnPredicate σ))} (h : e.Inv) :
    ⟨key, x⟩ ∈ e.mergedRows vortex stats schema table predicates ↔
      tablePrefix table <+: key ∧ x.visibleAt e.snapshotTs = true ∧
        (x ∈ (e.memtable.chain key).versions ∨
          e.isDroppedPrefix key = false ∧ ∃ i ∈ e.versionSet.files 0,
            predicates.any (skipFileByColumnStats (stats i)) = false ∧
            ⟨key, x⟩ ∈ e.fileScan vortex schema table (predicates.getD []) i) := by
  have hfiltered : ∀ i, ⟨key, x⟩ ∈ e.fileScan vortex schema table (predicates.getD []) i →
      tablePrefix table <+: key ∧ x.visibleAt e.snapshotTs = true := fun i hmem ↦ by
    obtain ⟨hrange, hsees, -⟩ := mem_scanRows.mp
      ((vortex.scanWithFilter_sublist schema _ _ _ _ _).subset hmem)
    exact ⟨tablePrefix_prefix_iff.mpr hrange, hsees⟩
  rw [mergedRows, List.mem_append, MemTable.scanPrefixVersions_eq,
    mem_scanRangeVersions h.memtable_tiled, ← tablePrefix_prefix_iff]
  constructor
  · rintro (⟨hunder, hsees, hmem⟩ | hmem)
    · exact ⟨hunder, hsees, .inl hmem⟩
    · split at hmem
      · cases hmem
      · obtain ⟨i, hi, hmem⟩ := List.mem_flatMap.mp hmem
        split at hmem
        · cases hmem
        next hskip =>
          obtain ⟨hrow, hdropped⟩ := List.mem_filter.mp hmem
          exact ⟨(hfiltered i hrow).1, (hfiltered i hrow).2,
            .inr ⟨by simpa using hdropped, i, hi, by simpa using hskip, hrow⟩⟩
  · rintro ⟨hunder, hsees, hmem | ⟨hdropped, i, hi, hskip, hmem⟩⟩
    · exact .inl ⟨hunder, hsees, hmem⟩
    · rw [← isDroppedPrefix_of_table hunder, hdropped]
      refine .inr (List.mem_flatMap.mpr ⟨i, hi, ?_⟩)
      rw [hskip]
      exact List.mem_filter.mpr ⟨hmem, by simpa using hdropped⟩

theorem mergedRows_none (e : Engine) (vortex : VortexScan σ)
    (stats : ℕ → Option (TableColumnStats σ)) (schema : TableSchema σ)
    (hdropped : e.isDroppedPrefix (tablePrefix table) = false) :
    e.mergedRows vortex stats schema table none = e.upperRows table := by
  have hfile : ∀ i, (e.fileScan vortex schema table [] i).filter
      (fun row ↦ !e.isDroppedPrefix row.key) = e.fileRows table i := fun i ↦ by
    rw [fileScan, vortex.scanWithFilter_nil, List.filter_eq_self]
    intro row hrow
    have hunder := tablePrefix_prefix_iff.mpr (mem_scanRows.mp hrow).1
    rw [isDroppedPrefix_of_table hunder, hdropped]
    rfl
  rw [mergedRows, upperRows, hdropped]
  simp [hfile]

end Merged

/-! ## What the sources offer -/

/-- The versions of a key in a source: the memtable with level 0, or a file of the
deeper levels. -/
def sourceStamps (e : Engine) (key : Bytes) : Option ℕ → Set (ℕ × Option Bytes)
  | none => e.stampsIn (· ∈ e.versionSet.files 0) key
  | some i => stamps (versionsOf (e.rowsOf i) key)

def tableSources (e : Engine) : List (Option ℕ) :=
  none :: e.partitionFiles.map some

/-- The version of a key that a source has at the snapshot of the scan. -/
def Offers (e : Engine) (source : Option ℕ) (key : Bytes) (p : ℕ × Option Bytes) : Prop :=
  Newest.IsNewestAt Prod.fst (e.sourceStamps key source) e.snapshotTs p

def listed (rows : List VersionedRow) : List (Bytes × ℕ × Option Bytes) :=
  (newestRows rows).toList.map fun entry ↦ (entry.1, entry.2.stamp)

def liveOnly (entries : List (Bytes × ℕ × Option Bytes)) : List (Bytes × ℕ × Bytes) :=
  entries.filterMap fun entry ↦ entry.2.2.map fun value ↦ (entry.1, entry.2.1, value)

theorem mem_listed {rows : List VersionedRow} :
    (key, p) ∈ listed rows ↔ ∃ x, (newestRows rows)[key]? = some x ∧ x.stamp = p := by
  rw [listed, List.mem_map]
  constructor
  · rintro ⟨⟨key', x⟩, hmem, heq⟩
    obtain ⟨rfl, rfl⟩ := Prod.mk.inj heq
    exact ⟨x, Std.ExtTreeMap.mem_toList_iff_getElem?_eq_some.mp hmem, rfl⟩
  · rintro ⟨x, hx, rfl⟩
    exact ⟨(key, x), Std.ExtTreeMap.mem_toList_iff_getElem?_eq_some.mpr hx, rfl⟩

theorem nodup_listed (rows : List VersionedRow) : ((listed rows).map Prod.fst).Nodup := by
  rw [listed, List.map_map]
  exact (newestRows_pairwise rows).imp fun hlt ↦ ne_of_lt hlt

theorem mem_liveOnly {ts : ℕ} {value : Bytes} :
    (key, ts, value) ∈ liveOnly entries ↔ (key, ts, some value) ∈ entries := by
  rw [liveOnly, List.mem_filterMap]
  constructor
  · rintro ⟨⟨key', ts', value'⟩, hmem, hsome⟩
    obtain ⟨value'', rfl, heq⟩ := Option.map_eq_some_iff.mp hsome
    cases heq
    exact hmem
  · exact fun hmem ↦ ⟨_, hmem, rfl⟩

theorem nodup_liveOnly (h : (entries.map Prod.fst).Nodup) : (liveOnly entries).Nodup := by
  refine h.of_map.filterMap ?_
  rintro ⟨key, ts, value⟩ ⟨key', ts', value'⟩ x hx hx'
  obtain ⟨v, rfl, rfl⟩ := Option.map_eq_some_iff.mp hx
  obtain ⟨v', rfl, heq⟩ := Option.map_eq_some_iff.mp hx'
  cases heq
  rfl

def offered (e : Engine) (table : Bytes) : Option ℕ → List (Bytes × ℕ × Option Bytes)
  | none => listed (e.upperRows table)
  | some i => (e.fileRows table i).map fun row ↦ (row.key, row.version.stamp)

theorem stored_eq_of_visible (h : e.Inv) (hi : e.IsLive i) {u v : VersionedValue}
    (hu : u ∈ versionsOf (e.rowsOf i) key) (hv : v ∈ versionsOf (e.rowsOf i) key)
    (hus : u.visibleAt s = true) (hvs : v.visibleAt s = true) : u = v :=
  eq_of_visibleAt ((h.sorted i hi).descending key) (h.tiled i hi key) hu hv hus hvs

theorem Inv.newest_file_iff (h : e.Inv) (hi : e.IsLive i) (hs : s < openEndedTs) :
    Newest.IsNewestAt Prod.fst (stamps (versionsOf (e.rowsOf i) key)) s p ↔
      ∃ v ∈ versionsOf (e.rowsOf i) key, v.visibleAt s = true ∧ v.stamp = p := by
  have hdesc := (h.sorted i hi).descending key
  constructor
  · rintro ⟨⟨v, hv, rfl⟩, hbegun, hmax⟩
    obtain ⟨u, hu, hsees, hle⟩ := exists_visible_ge (h.tiled i hi key) hdesc hs hv hbegun
    have hsame : u.beginTs = v.beginTs :=
      le_antisymm (hmax u.stamp (stamp_mem_stamps hu)
        (VersionedValue.visibleAt_eq_true.mp hsees).1) hle
    exact ⟨u, hu, hsees, congrArg VersionedValue.stamp (hdesc.eq_of_beginTs hu hv hsame)⟩
  · rintro ⟨v, hv, hsees, rfl⟩
    refine ⟨stamp_mem_stamps hv, (VersionedValue.visibleAt_eq_true.mp hsees).1, ?_⟩
    rintro q ⟨u, hu, rfl⟩ hbegun
    obtain ⟨w, hw, hwsees, hle⟩ := exists_visible_ge (h.tiled i hi key) hdesc hs hu hbegun
    rw [stored_eq_of_visible h hi hv hw hsees hwsees]
    exact hle

theorem snapshotTs_lt (hseq : e.commitSeq ≤ openEndedTs) : e.snapshotTs < openEndedTs := by
  rw [snapshotTs]
  have : 0 < openEndedTs := by decide
  omega

/-- What a scan of the table at the newest snapshot relies on. -/
structure Scannable (e : Engine) (table : Bytes) : Prop where
  inv : e.Inv
  seq : e.commitSeq ≤ openEndedTs
  undropped : e.isDroppedPrefix (tablePrefix table) = false

theorem mem_offered_none (h : e.Scannable table) :
    (key, p) ∈ e.offered table none ↔ tablePrefix table <+: key ∧ e.Offers none key p := by
  rw [offered, mem_listed]
  by_cases hunder : tablePrefix table <+: key
  · exact h.inv.newestRows_iff (snapshotTs_lt h.seq)
      ((isDroppedPrefix_of_table hunder).trans h.undropped)
      (fun i hi ↦ ⟨0, hi⟩) _ (fun x ↦ mem_upperRows h.inv h.undropped) p
  · refine iff_of_false (fun ⟨x, hx, _⟩ ↦ hunder ?_) fun hoffers ↦ hunder hoffers.1
    exact ((mem_upperRows h.inv h.undropped).mp
      (mem_map_entry.mp (Newest.isNewest_of_merged hx).1)).1

theorem mem_offered_some (h : e.Inv) (hseq : e.commitSeq ≤ openEndedTs) (hi : e.IsLive i) :
    (key, p) ∈ e.offered table (some i) ↔ tablePrefix table <+: key ∧ e.Offers (some i) key p := by
  rw [Offers, sourceStamps, h.newest_file_iff hi (snapshotTs_lt hseq), offered, List.mem_map]
  constructor
  · rintro ⟨⟨key', x⟩, hmem, heq⟩
    obtain ⟨rfl, rfl⟩ := Prod.mk.inj heq
    obtain ⟨hrange, hsees, v, hv, rfl⟩ := mem_scanRows.mp hmem
    exact ⟨tablePrefix_prefix_iff.mpr hrange, v, hv, hsees, rfl⟩
  · rintro ⟨hunder, v, hv, hsees, rfl⟩
    exact ⟨⟨key, v.stored⟩, mem_scanRows.mpr ⟨tablePrefix_prefix_iff.mp hunder, hsees, v, hv, rfl⟩,
      rfl⟩

theorem nodup_keys_scanRows (h : e.Inv) (hi : e.IsLive i) (lower upper : Bytes) (s : ℕ) :
    ((scanRows (e.rowsOf i) lower upper s).map VersionedRow.key).Nodup := by
  have hread : SortedRows (readAll (e.rowsOf i)) := List.pairwise_map.mpr (h.sorted i hi)
  refine List.pairwise_map.mpr ((hread.filter _).imp_of_mem ?_)
  rintro ⟨key, x⟩ ⟨key', y⟩ hx hy hbefore rfl
  obtain ⟨-, hxs, u, hu, rfl⟩ := mem_scanRows.mp hx
  obtain ⟨-, hys, v, hv, rfl⟩ := mem_scanRows.mp hy
  obtain rfl := stored_eq_of_visible h hi hu hv hxs hys
  rcases hbefore with hlt | ⟨-, hlt⟩
  · exact lt_irrefl _ hlt
  · exact lt_irrefl _ hlt

theorem mem_tableSources_some : some i ∈ e.tableSources ↔ i ∈ e.partitionFiles := by
  rw [tableSources, List.mem_cons, List.mem_map]
  constructor
  · rintro (heq | ⟨i', hi, heq⟩)
    · cases heq
    · exact Option.some.inj heq ▸ hi
  · exact fun hi ↦ .inr ⟨i, hi, rfl⟩

theorem mem_offered (h : e.Scannable table) (hsource : source ∈ e.tableSources) :
    (key, p) ∈ e.offered table source ↔ tablePrefix table <+: key ∧ e.Offers source key p := by
  cases source with
  | none => exact mem_offered_none h
  | some i =>
    exact mem_offered_some h.inv h.seq
      (isLive_of_mem_partitionFiles (mem_tableSources_some.mp hsource))

theorem nodup_offered (h : e.Inv) (hsource : source ∈ e.tableSources) :
    ((e.offered table source).map Prod.fst).Nodup := by
  cases source with
  | none => exact nodup_listed _
  | some i =>
    rw [offered, List.map_map]
    exact nodup_keys_scanRows h (isLive_of_mem_partitionFiles (mem_tableSources_some.mp hsource))
      _ _ _

def liveBlock (e : Engine) (table : Bytes) (source : Option ℕ) : List (Bytes × ℕ × Bytes) :=
  liveOnly (e.offered table source)

theorem mem_liveBlock (h : e.Scannable table)
    (hsource : source ∈ e.tableSources) {ts : ℕ} {value : Bytes} :
    (key, ts, value) ∈ e.liveBlock table source ↔
      tablePrefix table <+: key ∧ e.Offers source key (ts, some value) := by
  rw [← mem_offered h hsource]
  exact mem_liveOnly

theorem nodup_tableSources (h : e.Inv) : e.tableSources.Nodup := by
  refine List.nodup_cons.mpr ⟨by simp, ?_⟩
  exact (h.versionSet.nodup_filesFrom _ _).map (Option.some_injective ℕ)

def tableRows (e : Engine) (table : Bytes) : Set (Bytes × ℕ × Bytes) :=
  {row | tablePrefix table <+: row.1 ∧
    e.VisibleVersion row.1 e.snapshotTs (row.2.1, some row.2.2)}

def heldRows (e : Engine) (table : Bytes) : Set (Bytes × ℕ × Bytes) :=
  {row | tablePrefix table <+: row.1 ∧ (row.2.1, some row.2.2) ∈ e.heldStamps row.1}

section Exact

variable {σ : Type*} {schema : TableSchema σ}

/-- The sources agree on the table: each offers only newest versions, none that
another offers, a file only live ones, and no live key is left out. -/
structure SourcesAgree (e : Engine) (schema : TableSchema σ) (table : Bytes) : Prop where
  live : ∀ i ∈ e.partitionFiles, ∀ key p, tablePrefix table <+: key →
    e.Offers (some i) key p → p.2 ≠ none
  newest : ∀ source ∈ e.tableSources, ∀ key ts value, tablePrefix table <+: key →
    e.Offers source key (ts, some value) → e.VisibleVersion key e.snapshotTs (ts, some value)
  reached : ∀ key ts value, tablePrefix table <+: key →
    e.VisibleVersion key e.snapshotTs (ts, some value) →
      ∃ source ∈ e.tableSources, e.Offers source key (ts, some value)
  once : ∀ source ∈ e.tableSources, ∀ source' ∈ e.tableSources, ∀ key ts value,
    tablePrefix table <+: key → e.Offers source key (ts, some value) →
      e.Offers source' key (ts, some value) → source = source'
  columns : schema.fields = [] → e.tableRows table = ∅

/-- Decoded rows tell the held versions of a table apart, and none is all null. -/
structure TellsApart (e : Engine) (schema : TableSchema σ) (table : Bytes) : Prop where
  rows : Set.InjOn (fun row ↦ schema.decode row.2.2) (e.heldRows table)
  null : ∀ row ∈ e.heldRows table,
    schema.decode row.2.2 ≠ List.replicate schema.fields.length schema.null

theorem offers_held (hsource : source ∈ e.tableSources)
    (hoffers : e.Offers source key p) : p ∈ e.heldStamps key := by
  cases source with
  | none => exact stampsIn_subset (fun i hi ↦ ⟨0, hi⟩) key hoffers.1
  | some i =>
    obtain ⟨v, hv, rfl⟩ := hoffers.1
    exact .inr ⟨v, ⟨i, isLive_of_mem_partitionFiles (mem_tableSources_some.mp hsource), hv⟩, rfl⟩

theorem tableRows_subset_heldRows (e : Engine) (table : Bytes) :
    e.tableRows table ⊆ e.heldRows table :=
  fun _ hrow ↦ ⟨hrow.1, hrow.2.1⟩

theorem liveBlock_subset_heldRows (h : e.Scannable table) (hsource : source ∈ e.tableSources) :
    ∀ row ∈ e.liveBlock table source, row ∈ e.heldRows table := by
  rintro ⟨key, ts, value⟩ hrow
  obtain ⟨hunder, hoffers⟩ := (mem_liveBlock h hsource).mp hrow
  exact ⟨hunder, offers_held hsource hoffers⟩

theorem enumerates_sources_iff (h : e.Scannable table) :
    Enumeration.Enumerates (e.tableSources.flatMap (e.liveBlock table)) (e.tableRows table) ↔
      (∀ source ∈ e.tableSources, ∀ key ts value, tablePrefix table <+: key →
        e.Offers source key (ts, some value) →
          e.VisibleVersion key e.snapshotTs (ts, some value)) ∧
      (∀ key ts value, tablePrefix table <+: key →
        e.VisibleVersion key e.snapshotTs (ts, some value) →
          ∃ source ∈ e.tableSources, e.Offers source key (ts, some value)) ∧
      ∀ source ∈ e.tableSources, ∀ source' ∈ e.tableSources, ∀ key ts value,
        tablePrefix table <+: key → e.Offers source key (ts, some value) →
          e.Offers source' key (ts, some value) → source = source' := by
  refine (Enumeration.enumerates_flatMap_iff (nodup_tableSources h.inv)
    fun _ hi ↦ nodup_liveOnly (nodup_offered h.inv hi)).trans ?_
  constructor
  · intro hsplits
    refine ⟨fun source hsource key ts value hunder hoffers ↦ ?_,
      fun key ts value hunder hvisible ↦ ?_,
      fun source hsource source' hsource' key ts value hunder hoffers hoffers' ↦ ?_⟩
    · exact (hsplits.sound source hsource _ ((mem_liveBlock h hsource).mpr ⟨hunder, hoffers⟩)).2
    · obtain ⟨source, hsource, hrow⟩ := hsplits.total (key, ts, value) ⟨hunder, hvisible⟩
      exact ⟨source, hsource, ((mem_liveBlock h hsource).mp hrow).2⟩
    · exact hsplits.unique source hsource source' hsource' (key, ts, value)
        ((mem_liveBlock h hsource).mpr ⟨hunder, hoffers⟩)
        ((mem_liveBlock h hsource').mpr ⟨hunder, hoffers'⟩)
  · rintro ⟨hnewest, hreached, honce⟩
    refine ⟨fun source hsource row hrow ↦ ?_, fun row hrow ↦ ?_,
      fun source hsource source' hsource' row hrow hrow' ↦ ?_⟩
    · obtain ⟨key, ts, value⟩ := row
      obtain ⟨hunder, hoffers⟩ := (mem_liveBlock h hsource).mp hrow
      exact ⟨hunder, hnewest source hsource _ _ _ hunder hoffers⟩
    · obtain ⟨key, ts, value⟩ := row
      obtain ⟨source, hsource, hoffers⟩ := hreached _ _ _ hrow.1 hrow.2
      exact ⟨source, hsource, (mem_liveBlock h hsource).mpr ⟨hrow.1, hoffers⟩⟩
    · obtain ⟨key, ts, value⟩ := row
      obtain ⟨hunder, hoffers⟩ := (mem_liveBlock h hsource).mp hrow
      exact honce source hsource source' hsource' _ _ _ hunder hoffers
        ((mem_liveBlock h hsource').mp hrow').2

theorem liveRows_newestRows (hfields : schema.fields ≠ []) (rows : List VersionedRow) :
    schema.liveRows (newestRows rows) =
      (liveOnly (listed rows)).map fun row ↦ schema.decode row.2.2 := by
  rw [TableSchema.liveRows, if_neg hfields, liveOnly, listed, List.filterMap_map,
    List.map_filterMap]
  refine List.filterMap_congr fun entry _ ↦ ?_
  cases hvalue : entry.2.value with
  | none | some value => simp [VersionedValue.stamp, hvalue]

theorem liveRows_eq (hcolumns : schema.fields = [] → e.liveBlock table none = []) :
    schema.liveRows (newestRows (e.upperRows table)) =
      (e.liveBlock table none).map fun row ↦ schema.decode row.2.2 := by
  by_cases hfields : schema.fields = []
  · rw [TableSchema.liveRows, if_pos hfields, hcolumns hfields, List.map_nil]
  · exact liveRows_newestRows hfields _

theorem businessColumns_eq {rows : List VersionedRow}
    (hlive : ∀ row ∈ rows, row.version.value ≠ none) :
    (rows.map fun row ↦ schema.businessColumns row.version) =
      (liveOnly (rows.map fun row ↦ (row.key, row.version.stamp))).map
        fun row ↦ schema.decode row.2.2 := by
  induction rows with
  | nil => rfl
  | cons row rows ih =>
    obtain ⟨hrow, hrows⟩ := List.forall_mem_cons.mp hlive
    obtain ⟨payload, hpayload⟩ := Option.ne_none_iff_exists'.mp hrow
    rw [List.map_cons, ih hrows, TableSchema.businessColumns, hpayload]
    simp [liveOnly, VersionedValue.stamp, hpayload]

variable [PartialOrder σ] [DecidableEq σ] [DecidableLT σ] [DecidableLE σ] {vortex : VortexScan σ}
  {stats : ℕ → Option (TableColumnStats σ)} {fallback : Option (TableSchema σ)} {batchSize : ℕ+}
  {partitions : List (List (List (List σ)))}

/-- The partitions together have the decoded newest version of each live key. -/
def ScansExactly (e : Engine) (vortex : VortexScan σ) (stats : ℕ → Option (TableColumnStats σ))
    (schema : TableSchema σ) (fallback : Option (TableSchema σ)) (table : Bytes)
    (batchSize : ℕ+) : Prop :=
  ∃ partitions, e.scanTableArrow vortex stats (some schema) fallback table batchSize none =
      .ok partitions ∧
    ∃ rows, Enumeration.Enumerates rows (e.tableRows table) ∧
      partitions.flatten.flatten.Perm (rows.map fun row ↦ schema.decode row.2.2)

omit [DecidableEq σ] [DecidableLE σ] in
theorem scannedFiles_nil (stats : ℕ → Option (TableColumnStats σ)) (schema : TableSchema σ)
    (hdropped : e.isDroppedPrefix (tablePrefix table) = false) :
    e.scannedFiles stats schema table [] = e.partitionFiles := by
  rw [scannedFiles, hdropped]
  simp

theorem offers_of_mem_partitionRows (h : e.Inv) (hseq : e.commitSeq ≤ openEndedTs)
    (hi : i ∈ e.partitionFiles) {row : VersionedRow}
    (hrow : row ∈ e.partitionRows vortex schema table [] i) :
    tablePrefix table <+: row.key ∧ e.Offers (some i) row.key row.version.stamp := by
  rw [partitionRows, vortex.scan_nil] at hrow
  exact (mem_offered_some h hseq (isLive_of_mem_partitionFiles hi)).mp (List.mem_map_of_mem hrow)

theorem rows_eq_of_live (h : e.Scannable table)
    (hscan : e.scanTableArrow vortex stats (some schema) fallback table batchSize none =
      .ok partitions)
    (hlive : ∀ i ∈ e.partitionFiles, ∀ key p, tablePrefix table <+: key →
      e.Offers (some i) key p → p.2 ≠ none)
    (hcolumns : schema.fields = [] → e.liveBlock table none = []) :
    partitions.flatten.flatten = (e.tableSources.flatMap (e.liveBlock table)).map
      fun row ↦ schema.decode row.2.2 := by
  have hpartition : ∀ i ∈ e.partitionFiles,
      ((e.partitionRows vortex schema table [] i).map
        fun row ↦ schema.businessColumns row.version) =
        (e.liveBlock table (some i)).map fun row ↦ schema.decode row.2.2 := fun i hi ↦ by
    rw [businessColumns_eq fun row hrow ↦ ?_, partitionRows, vortex.scan_nil]
    · rfl
    · obtain ⟨hunder, hoffers⟩ := offers_of_mem_partitionRows h.inv h.seq hi hrow
      exact hlive i hi row.key row.version.stamp hunder hoffers
  rw [rows_of_scanTableArrow rfl hscan, Option.getD_none, scannedFiles_nil _ _ h.undropped,
    namedPredicates, Option.bind_none, mergedVisible_eq,
    mergedRows_none e vortex stats schema h.undropped,
    liveRows_eq hcolumns, List.flatMap_congr hpartition, tableSources, List.flatMap_cons,
    List.flatMap_map, List.map_append, List.map_flatMap]

theorem SourcesAgree.scansExactly (h : e.Scannable table)
    (hagree : e.SourcesAgree schema table) (vortex : VortexScan σ)
    (stats : ℕ → Option (TableColumnStats σ)) (fallback : Option (TableSchema σ))
    (batchSize : ℕ+) : e.ScansExactly vortex stats schema fallback table batchSize := by
  have henumerates :=
    (enumerates_sources_iff h).mpr ⟨hagree.newest, hagree.reached, hagree.once⟩
  have hcolumns : schema.fields = [] → e.liveBlock table none = [] := fun hnone ↦ by
    refine List.eq_nil_iff_forall_not_mem.mpr fun row hrow ↦ ?_
    have hmem := (henumerates.2 row).mp (List.mem_flatMap.mpr ⟨none, .head _, hrow⟩)
    rw [hagree.columns hnone] at hmem
    exact hmem
  have hscans : ∃ partitions, e.scanTableArrow vortex stats (some schema) fallback table batchSize
      none = .ok partitions := by
    refine (exists_scanTableArrow_iff rfl).mpr fun i hi row hrow ↦ ?_
    rw [Option.getD_none, scannedFiles_nil _ _ h.undropped] at hi
    obtain ⟨hunder, hoffers⟩ := offers_of_mem_partitionRows h.inv h.seq hi hrow
    obtain ⟨payload, hpayload⟩ :=
      Option.ne_none_iff_exists'.mp (hagree.live i hi row.key _ hunder hoffers)
    have hvalue : row.version.value = some payload := hpayload
    constructor
    · intro hnone
      have hstamp : row.version.stamp = (row.version.beginTs, some payload) :=
        congrArg (Prod.mk row.version.beginTs) hvalue
      have hmem : (row.key, row.version.beginTs, payload) ∈ e.tableRows table :=
        ⟨hunder, hagree.newest (some i) (mem_tableSources_some.mpr hi) row.key _ payload hunder
          (hstamp ▸ hoffers)⟩
      rw [hagree.columns hnone] at hmem
      exact hmem
    · rw [TableSchema.businessColumns, hvalue]
      exact schema.fits_decode payload
  obtain ⟨partitions, hscan⟩ := hscans
  refine ⟨partitions, hscan, _, henumerates, ?_⟩
  rw [rows_eq_of_live h hscan hagree.live hcolumns]

theorem ScansExactly.sourcesAgree (h : e.Scannable table) (hapart : e.TellsApart schema table)
    (hexact : e.ScansExactly vortex stats schema fallback table batchSize) :
    e.SourcesAgree schema table := by
  obtain ⟨partitions, hscan, rows, hrows, hperm⟩ := hexact
  have hdecoded : ∀ row ∈ partitions.flatten.flatten,
      row ≠ List.replicate schema.fields.length schema.null := fun row hrow heq ↦ by
    obtain ⟨entry, hentry, rfl⟩ := List.mem_map.mp (hperm.mem_iff.mp hrow)
    exact hapart.null entry (e.tableRows_subset_heldRows table ((hrows.2 entry).mp hentry)) heq
  -- Without columns every payload decodes to the row without scalars, which is all null.
  have hempty : schema.fields = [] → ∀ row, row ∉ e.heldRows table := fun hnone row hrow ↦ by
    refine hapart.null row hrow ?_
    have hlength := schema.decode_length row.2.2
    rw [hnone] at hlength ⊢
    exact List.eq_nil_of_length_eq_zero hlength
  have hlive : ∀ i ∈ e.partitionFiles, ∀ key p, tablePrefix table <+: key →
      e.Offers (some i) key p → p.2 ≠ none := fun i hi key p hunder hoffers hnone ↦ by
    have hoffered :=
      (mem_offered_some h.inv h.seq (isLive_of_mem_partitionFiles hi)).mpr ⟨hunder, hoffers⟩
    obtain ⟨row, hrow, heq⟩ := List.mem_map.mp hoffered
    have hvalue : row.version.value = none := (congrArg (fun entry ↦ entry.2.2) heq).trans hnone
    have hshown : schema.businessColumns row.version ∈ partitions.flatten.flatten := by
      rw [rows_of_scanTableArrow rfl hscan, Option.getD_none, scannedFiles_nil _ _ h.undropped]
      refine List.mem_append_right _ (List.mem_flatMap.mpr ⟨i, hi, List.mem_map_of_mem ?_⟩)
      rw [partitionRows, vortex.scan_nil]
      exact hrow
    refine hdecoded _ hshown ?_
    rw [TableSchema.businessColumns, hvalue]
  have hcolumns : schema.fields = [] → e.liveBlock table none = [] := fun hnone ↦
    List.eq_nil_iff_forall_not_mem.mpr fun row hrow ↦ hempty hnone row
      (liveBlock_subset_heldRows h (.head _) row hrow)
  rw [rows_eq_of_live h hscan hlive hcolumns] at hperm
  have hheld : ∀ row ∈ e.tableSources.flatMap (e.liveBlock table), row ∈ e.heldRows table :=
    fun row hrow ↦ by
      obtain ⟨source, hsource, hmem⟩ := List.mem_flatMap.mp hrow
      exact liveBlock_subset_heldRows h hsource row hmem
  have henumerates := Enumeration.Enumerates.of_map_perm hapart.rows hheld
    (e.tableRows_subset_heldRows table) hrows hperm
  obtain ⟨hnewest, hreached, honce⟩ := (enumerates_sources_iff h).mp henumerates
  refine ⟨hlive, hnewest, hreached, honce, fun hnone ↦ ?_⟩
  exact Set.eq_empty_iff_forall_notMem.mpr fun row hrow ↦
    hempty hnone row (e.tableRows_subset_heldRows table hrow)

end Exact

def visibleRows (e : Engine) (table : Bytes) : List (Bytes × ℕ × Bytes) :=
  liveOnly (listed (e.rangeRows (tablePrefix table) (prefixUpperExclusive (tablePrefix table))
    e.snapshotTs))

theorem enumerates_visibleRows (h : e.Scannable table) :
    Enumeration.Enumerates (e.visibleRows table) (e.tableRows table) := by
  refine ⟨nodup_liveOnly (nodup_listed _), ?_⟩
  rintro ⟨key, ts, value⟩
  rw [visibleRows, mem_liveOnly, mem_listed]
  by_cases hunder : tablePrefix table <+: key
  · have hrows : ∀ x, ⟨key, x⟩ ∈ e.rangeRows (tablePrefix table)
        (prefixUpperExclusive (tablePrefix table)) e.snapshotTs ↔
          tablePrefix table <+: key ∧ e.ShowsIn e.IsLive key e.snapshotTs x := fun x ↦ by
      rw [mem_rangeRows h.inv, ← tablePrefix_prefix_iff]
      rfl
    have hiff := h.inv.newestRows_iff (snapshotTs_lt h.seq)
      ((isDroppedPrefix_of_table hunder).trans h.undropped) (fun _ hi ↦ hi) _ hrows (ts, some value)
    rw [stampsIn_isLive] at hiff
    exact hiff
  · refine iff_of_false (fun ⟨x, hx, _⟩ ↦ hunder ?_) fun hrow ↦ hunder hrow.1
    exact tablePrefix_prefix_iff.mpr
      ((mem_rangeRows h.inv).mp (mem_map_entry.mp (Newest.isNewest_of_merged hx).1)).1

section Checks

variable {σ : Type*} {schema : TableSchema σ}

theorem ScansExactly.perm_visibleRows [PartialOrder σ] [DecidableEq σ] [DecidableLT σ]
    [DecidableLE σ] {vortex : VortexScan σ} {stats : ℕ → Option (TableColumnStats σ)}
    {fallback : Option (TableSchema σ)} {batchSize : ℕ+} (h : e.Scannable table)
    (hexact : e.ScansExactly vortex stats schema fallback table batchSize) :
    ∃ partitions, e.scanTableArrow vortex stats (some schema) fallback table batchSize none =
        .ok partitions ∧
      partitions.flatten.flatten.Perm
        ((e.visibleRows table).map fun row ↦ schema.decode row.2.2) := by
  obtain ⟨partitions, hscan, rows, hrows, hperm⟩ := hexact
  refine ⟨partitions, hscan, hperm.trans (List.Perm.map _ ?_)⟩
  have hvisible := enumerates_visibleRows h
  exact (List.perm_ext_iff_of_nodup hrows.1 hvisible.1).mpr fun row ↦
    (hrows.2 row).trans (hvisible.2 row).symm

theorem sourcesAgree_of_perm (h : e.Scannable table) (hcolumns : schema.fields ≠ [])
    (hlive : ∀ i ∈ e.partitionFiles, ∀ entry ∈ e.offered table (some i), entry.2.2 ≠ none)
    (hperm : (e.tableSources.flatMap (e.liveBlock table)).Perm (e.visibleRows table)) :
    e.SourcesAgree schema table := by
  have hvisible := enumerates_visibleRows h
  have henumerates : Enumeration.Enumerates (e.tableSources.flatMap (e.liveBlock table))
      (e.tableRows table) :=
    ⟨hperm.nodup_iff.mpr hvisible.1, fun row ↦ hperm.mem_iff.trans (hvisible.2 row)⟩
  obtain ⟨hnewest, hreached, honce⟩ := (enumerates_sources_iff h).mp henumerates
  refine ⟨fun i hi key p hunder hoffers ↦ ?_, hnewest, hreached, honce,
    fun hnone ↦ absurd hnone hcolumns⟩
  exact hlive i hi (key, p) ((mem_offered_some h.inv h.seq (isLive_of_mem_partitionFiles hi)).mpr
    ⟨hunder, hoffers⟩)

end Checks

end Engine

namespace LoggedEngine

/-- A table scan lists the live rows of a table exactly once when the sources
agree on it, and, where decoded rows tell versions apart, only then. -/
theorem scanTableArrow_exact_iff {σ : Type*} [PartialOrder σ] [DecidableEq σ] [DecidableLT σ]
    [DecidableLE σ] {ops : List TableOp} {st : LoggedEngine}
    (hrun : run tableStep initial ops = some st)
    (hseq : st.engine.commitSeq ≤ openEndedTs) {table : Bytes}
    (hdropped : st.engine.isDroppedPrefix (tablePrefix table) = false) (schema : TableSchema σ)
    (vortex : VortexScan σ) (stats : ℕ → Option (TableColumnStats σ))
    (fallback : Option (TableSchema σ)) (batchSize : ℕ+) :
    (st.engine.SourcesAgree schema table →
      st.engine.ScansExactly vortex stats schema fallback table batchSize) ∧
    (st.engine.TellsApart schema table →
      st.engine.ScansExactly vortex stats schema fallback table batchSize →
        st.engine.SourcesAgree schema table) := by
  have hinv := engine_inv_of_run hrun
  exact ⟨fun hagree ↦ hagree.scansExactly ⟨hinv, hseq, hdropped⟩ vortex stats fallback batchSize,
    fun hapart hexact ↦ hexact.sourcesAgree ⟨hinv, hseq, hdropped⟩ hapart⟩

/-- One column, the first byte of the payload plus one; zero is the null scalar. -/
def byteSchema (nullable : Bool) : TableSchema ℕ where
  fields := [⟨"value", nullable⟩]
  decode payload := [(payload.headD 0).toNat + 1]
  isNull scalar := scalar == 0
  null := 0
  isNull_null := rfl
  decode_length _ := rfl
  decode_nulls {payload col field scalar} hfield hscalar hnull := by
    obtain rfl : scalar = (payload.headD 0).toNat + 1 := by simpa using List.mem_of_getElem? hscalar
    simp at hnull

def compactedTo (level : ℕ) : List TableOp :=
  [.call (.write 1 [.put [116, 0, 1] [1]]), .call (.flush Engine.plainEnv 1000),
    .call (.write 2 [.put [116, 0, 2] [3]]), .call (.flush Engine.plainEnv 1000),
    .call (.compact 0 level 2 Engine.plainEnv)]

theorem scanTableArrow_exact_iff_compacted :
    ∃ st, run tableStep initial
        (compactedTo 1 ++ [.call (.write 3 [.put [116, 0, 3] [2]])]) = some st ∧
      st.engine.partitionFiles = [2] ∧ st.engine.SourcesAgree (byteSchema true) [116] ∧
      st.engine.ScansExactly .exact (fun _ ↦ none) (byteSchema true) none [116] 100 := by
  have hplain : ∀ op ∈ compactedTo 1 ++ [.call (.write 3 [.put [116, 0, 3] [2]])], op.Plain := by
    decide
  obtain ⟨st, hrun, hengine⟩ := initial.exists_run_plain hplain
  have hinv := engine_inv_of_run hrun
  have hseq : st.engine.commitSeq ≤ openEndedTs := by
    rw [hengine]
    decide
  have hdropped : st.engine.isDroppedPrefix (tablePrefix [116]) = false := by
    rw [hengine]
    decide
  have hagree : st.engine.SourcesAgree (byteSchema true) [116] := by
    refine Engine.sourcesAgree_of_perm ⟨hinv, hseq, hdropped⟩ (List.cons_ne_nil _ _) ?_ ?_
    · rw [hengine]
      decide
    · rw [hengine]
      decide
  refine ⟨st, hrun, ?_, hagree, (scanTableArrow_exact_iff hrun hseq hdropped (byteSchema true)
    .exact (fun _ ↦ none) none 100).1 hagree⟩
  rw [hengine]
  decide

/-- A history after which a table scan does not have the rows of all sources. -/
theorem exists_not_scansExactly {ops : List TableOp} {table : Bytes} {schema : TableSchema ℕ}
    (hplain : ∀ op ∈ ops, op.Plain)
    (hseq : (ops.foldl Engine.execTable Engine.initial).commitSeq ≤ openEndedTs)
    (hdropped : (ops.foldl Engine.execTable Engine.initial).isDroppedPrefix (tablePrefix table) =
      false)
    (hdiffers : (match (ops.foldl Engine.execTable Engine.initial).scanTableArrow .exact
        (fun _ ↦ none) (some schema) none table 100 none with
      | .ok partitions => decide (partitions.flatten.flatten.Perm
          (((ops.foldl Engine.execTable Engine.initial).visibleRows table).map
            fun row ↦ schema.decode row.2.2))
      | .error _ => false) = false) :
    ∃ st, run tableStep initial ops = some st ∧
      st.engine.isDroppedPrefix (tablePrefix table) = false ∧
      ¬st.engine.ScansExactly .exact (fun _ ↦ none) schema none table 100 := by
  obtain ⟨st, hrun, hengine⟩ := initial.exists_run_plain hplain
  have hinv := engine_inv_of_run hrun
  rw [show initial.engine = Engine.initial from rfl] at hengine
  rw [← hengine] at hseq hdropped hdiffers
  refine ⟨st, hrun, hdropped, fun hexact ↦ ?_⟩
  obtain ⟨partitions, hscan, hperm⟩ := hexact.perm_visibleRows ⟨hinv, hseq, hdropped⟩
  rw [hscan] at hdiffers
  exact of_decide_eq_false hdiffers hperm

/-- A file of level 1 shows a version that the memtable has superseded, a file of
level 2 is not reached over an empty level 1, and a tombstone in a file becomes a
row of nulls, or an error where nulls are forbidden. -/
theorem scanTableArrow_inexact :
    (∃ st, run tableStep initial
        (compactedTo 1 ++ [.call (.write 3 [.put [116, 0, 1] [2]])]) = some st ∧
      st.engine.isDroppedPrefix (tablePrefix [116]) = false ∧
      ¬st.engine.ScansExactly .exact (fun _ ↦ none) (byteSchema true) none [116] 100) ∧
    (∃ st, run tableStep initial (compactedTo 2) = some st ∧
      st.engine.isDroppedPrefix (tablePrefix [116]) = false ∧
      ¬st.engine.ScansExactly .exact (fun _ ↦ none) (byteSchema true) none [116] 100) ∧
    ∀ nullable, ∃ st, run tableStep initial
        [.call (.write 1 [.put [116, 0, 1] [1]]), .call (.flush Engine.plainEnv 1000),
          .call (.write 2 [.delete [116, 0, 1]]), .call (.flush Engine.plainEnv 1000),
          .call (.compact 0 1 2 Engine.plainEnv)] = some st ∧
      st.engine.isDroppedPrefix (tablePrefix [116]) = false ∧
      ¬st.engine.ScansExactly .exact (fun _ ↦ none) (byteSchema nullable) none [116] 100 := by
  refine ⟨exists_not_scansExactly (by decide) (by decide) (by decide) (by decide),
    exists_not_scansExactly (by decide) (by decide) (by decide) (by decide), fun nullable ↦ ?_⟩
  cases nullable with
  | false => exact exists_not_scansExactly (by decide) (by decide) (by decide) (by decide)
  | true => exact exists_not_scansExactly (by decide) (by decide) (by decide) (by decide)

end LoggedEngine

end HatP
