import HatP.EarlyExit
import HatP.Lib.NewestByKey
import HatP.Tables.Store

/-!
# Range scans

A scan collects the versions that the snapshot sees, from the memtable and from
every live file whose key range meets the bounds, and keeps the newest of each
key.  Several files can show a version of one key, because the end of a version
is fixed when its file is written.
-/

namespace HatP

open Transition
open Std (ExtTreeMap ExtTreeSet)

/-! ## The scans -/

def insertNewest (visible : ExtTreeMap Bytes VersionedValue) (row : VersionedRow) :
    ExtTreeMap Bytes VersionedValue :=
  Newest.insertNewest VersionedValue.beginTs visible (row.key, row.version)

def MemTable.scanRangeVersions (table : MemTable) (lower upper : Bytes) (snapshot : ℕ) :
    List VersionedRow :=
  table.toList.filterMap fun entry ↦
    if lower ≤ entry.1 ∧ entry.1 < upper then (entry.2.get snapshot).map (VersionedRow.mk entry.1)
    else none

def scanRows (rows : List VersionedRow) (lower upper : Bytes) (snapshot : ℕ) : List VersionedRow :=
  (readAll rows).filter fun row ↦
    decide (lower ≤ row.key ∧ row.key < upper) && row.version.visibleAt snapshot

namespace Engine

def levelFiles (e : Engine) : List ℕ :=
  e.versionSet.levels.toList.flatMap fun level ↦ level.2.toList

def outsideRange (e : Engine) (lower upper : Bytes) (fileId : ℕ) : Bool :=
  e.versionSet.fileMeta[fileId]?.any fun info ↦
    decide (info.minKey ≠ [] ∧ info.maxKey ≠ [] ∧ (info.maxKey < lower ∨ upper ≤ info.minKey))

/-- The rows of a file that are not filtered with their table go into the scan. -/
def insertRows (e : Engine) (visible : ExtTreeMap Bytes VersionedValue)
    (rows : List VersionedRow) : ExtTreeMap Bytes VersionedValue :=
  rows.foldl (fun visible row ↦
    if e.isDroppedPrefix row.key then visible else insertNewest visible row) visible

def scanRange (e : Engine) (lower upper : Bytes) (snapshot : ℕ) : List (Bytes × Bytes) :=
  let inMemory := (e.memtable.scanRangeVersions lower upper snapshot).foldl insertNewest ∅
  let visible := e.levelFiles.foldl (fun visible fileId ↦
    if e.outsideRange lower upper fileId then visible
    else e.insertRows visible (scanRows (e.rowsOf fileId) lower upper snapshot)) inMemory
  visible.toList.filterMap fun entry ↦ entry.2.value.map (Prod.mk entry.1)

def scanAll (e : Engine) (snapshot : ℕ) : List (Bytes × Option Bytes) :=
  let inMemory := (e.memtable.drainInto.filter (·.version.visibleAt snapshot)).foldl insertNewest ∅
  let visible := e.levelFiles.foldl (fun visible fileId ↦
    e.insertRows visible ((readAll (e.rowsOf fileId)).filter (·.version.visibleAt snapshot)))
    inMemory
  visible.toList.map fun entry ↦ (entry.1, entry.2.value)

end Engine

/-! ## Which versions a scan looks at -/

theorem VersionChain.get_eq_some_iff {chain : VersionChain} (h : chain.Tiled) {s : ℕ}
    {v : VersionedValue} :
    chain.get s = some v ↔ v ∈ chain.versions ∧ v.visibleAt s = true := by
  have hfound : ∀ {u}, chain.get s = some u → u ∈ chain.versions ∧ u.visibleAt s = true :=
    fun hget ↦ ⟨List.mem_of_find?_eq_some hget, by simpa using List.find?_some hget⟩
  refine ⟨hfound, fun ⟨hmem, hsees⟩ ↦ ?_⟩
  have hsome : (chain.get s).isSome := List.find?_isSome.mpr ⟨v, hmem, hsees⟩
  obtain ⟨u, hu⟩ := Option.isSome_iff_exists.mp hsome
  rw [hu, eq_of_visibleAt chain.descending h hmem (hfound hu).1 hsees (hfound hu).2]

namespace Engine

variable {rows : List VersionedRow}

/-- The scan sees version `x` of `key` in the memtable or in a file. -/
def Shows (e : Engine) (key : Bytes) (s : ℕ) (x : VersionedValue) : Prop :=
  x.visibleAt s = true ∧
    (x ∈ (e.memtable.chain key).versions ∨
      e.isDroppedPrefix key = false ∧
        ∃ i, e.IsLive i ∧ ∃ v ∈ versionsOf (e.rowsOf i) key, v.stored = x)

variable {e : Engine} {key lower upper : Bytes} {s i : ℕ} {x : VersionedValue}

theorem mem_levelFiles : i ∈ e.levelFiles ↔ e.IsLive i := by
  have hsame : ∀ l, (i, l) ∈ e.versionSet.fileLevel ↔
      ∃ level ∈ e.versionSet.levels.toList, level.1 = l ∧ i ∈ level.2.toList := fun l ↦ by
    rw [VersionSet.fileLevel, List.mem_insertionSort, List.mem_flatMap]
    constructor
    · rintro ⟨level, hlevel, hmem⟩
      obtain ⟨i', hi, heq⟩ := List.mem_map.mp hmem
      obtain ⟨rfl, rfl⟩ := Prod.mk.inj heq
      exact ⟨level, hlevel, rfl, hi⟩
    · rintro ⟨level, hlevel, rfl, hi⟩
      exact ⟨level, hlevel, List.mem_map.mpr ⟨i, hi, rfl⟩⟩
  rw [levelFiles, List.mem_flatMap]
  constructor
  · rintro ⟨level, hlevel, hi⟩
    exact ⟨level.1, VersionSet.mem_fileLevel.mp ((hsame level.1).mpr ⟨level, hlevel, rfl, hi⟩)⟩
  · rintro ⟨l, hl⟩
    obtain ⟨level, hlevel, -, hi⟩ := (hsame l).mp (VersionSet.mem_fileLevel.mpr hl)
    exact ⟨level, hlevel, hi⟩

theorem mem_scanRows :
    ⟨key, x⟩ ∈ scanRows rows lower upper s ↔
      (lower ≤ key ∧ key < upper) ∧ x.visibleAt s = true ∧
        ∃ v ∈ versionsOf rows key, v.stored = x := by
  rw [scanRows, List.mem_filter, ← mem_versionsOf, versionsOf_readAll, List.mem_map]
  simp only [Bool.and_eq_true, decide_eq_true_eq]
  tauto

theorem mem_scanRangeVersions (h : e.memtable.Tiled) :
    ⟨key, x⟩ ∈ e.memtable.scanRangeVersions lower upper s ↔
      (lower ≤ key ∧ key < upper) ∧ x.visibleAt s = true ∧ x ∈ (e.memtable.chain key).versions := by
  rw [MemTable.scanRangeVersions, List.mem_filterMap]
  constructor
  · rintro ⟨⟨key', chain⟩, hentry, hsome⟩
    dsimp only at hsome
    split at hsome
    next hrange =>
      obtain ⟨version, hget, heq⟩ := Option.map_eq_some_iff.mp hsome
      obtain ⟨rfl, rfl⟩ := VersionedRow.mk.inj heq
      have hchain : e.memtable.chain key' = chain := by
        rw [MemTable.chain, ExtTreeMap.mem_toList_iff_getElem?_eq_some.mp hentry]
        rfl
      have hversion := (VersionChain.get_eq_some_iff (hchain ▸ h key')).mp hget
      exact ⟨hrange, hversion.2, hchain ▸ hversion.1⟩
    next => cases hsome
  · rintro ⟨hrange, hsees, hmem⟩
    cases hentry : e.memtable[key]? with
    | none =>
      rw [MemTable.chain, hentry] at hmem
      cases hmem
    | some chain =>
      have hchain : e.memtable.chain key = chain := by
        rw [MemTable.chain, hentry]
        rfl
      refine ⟨(key, chain), ExtTreeMap.mem_toList_iff_getElem?_eq_some.mpr hentry, ?_⟩
      rw [if_pos hrange, (VersionChain.get_eq_some_iff (hchain ▸ h key)).mpr ⟨hchain ▸ hmem, hsees⟩]
      rfl

theorem not_outsideRange (h : e.Inv) (hi : e.IsLive i) (hkey : versionsOf (e.rowsOf i) key ≠ [])
    (hrange : lower ≤ key ∧ key < upper) : e.outsideRange lower upper i = false := by
  obtain ⟨info, hinfo, hmin, hmax⟩ :=
    VersionSet.mem_candidateFiles.mp (candidate_of_holds h hi hkey)
  rw [outsideRange, hinfo, Option.any_some, decide_eq_false_iff_not]
  rintro ⟨-, hne, hbelow | habove⟩
  · exact absurd (hrange.1.trans (hmax.resolve_left hne)) (not_le.mpr hbelow)
  · exact absurd (habove.trans hmin) (not_le.mpr hrange.2)

/-! ## What a scan returns -/

def rangeRows (e : Engine) (lower upper : Bytes) (s : ℕ) : List VersionedRow :=
  e.memtable.scanRangeVersions lower upper s ++ e.levelFiles.flatMap fun fileId ↦
    if e.outsideRange lower upper fileId then []
    else (scanRows (e.rowsOf fileId) lower upper s).filter fun row ↦ !e.isDroppedPrefix row.key

def allRows (e : Engine) (s : ℕ) : List VersionedRow :=
  e.memtable.drainInto.filter (·.version.visibleAt s) ++ e.levelFiles.flatMap fun fileId ↦
    ((readAll (e.rowsOf fileId)).filter (·.version.visibleAt s)).filter fun row ↦
      !e.isDroppedPrefix row.key

def newestRows (rows : List VersionedRow) : ExtTreeMap Bytes VersionedValue :=
  Newest.merged VersionedValue.beginTs (rows.map fun row ↦ (row.key, row.version))

theorem insertRows_eq (e : Engine) (visible : ExtTreeMap Bytes VersionedValue)
    (rows : List VersionedRow) :
    e.insertRows visible rows =
      (rows.filter fun row ↦ !e.isDroppedPrefix row.key).foldl insertNewest visible := by
  rw [insertRows, List.foldl_filter]
  congr 1
  funext visible row
  cases e.isDroppedPrefix row.key <;> rfl

theorem foldl_insertNewest (rows : List VersionedRow) (visible : ExtTreeMap Bytes VersionedValue) :
    rows.foldl insertNewest visible = (rows.map fun row ↦ (row.key, row.version)).foldl
      (Newest.insertNewest VersionedValue.beginTs) visible := by
  rw [List.foldl_map]
  rfl

theorem scanRange_eq (e : Engine) (lower upper : Bytes) (s : ℕ) :
    e.scanRange lower upper s = (newestRows (e.rangeRows lower upper s)).toList.filterMap
      fun entry ↦ entry.2.value.map (Prod.mk entry.1) := by
  rw [newestRows, Newest.merged, ← foldl_insertNewest, rangeRows, List.foldl_append,
    List.foldl_flatMap, scanRange]
  congr 3
  funext visible fileId
  split
  · rfl
  · exact e.insertRows_eq visible _

theorem scanAll_eq (e : Engine) (s : ℕ) :
    e.scanAll s = (newestRows (e.allRows s)).toList.map fun entry ↦ (entry.1, entry.2.value) := by
  rw [newestRows, Newest.merged, ← foldl_insertNewest, allRows, List.foldl_append,
    List.foldl_flatMap, scanAll]
  congr 3
  funext visible fileId
  exact e.insertRows_eq visible _

theorem mem_rangeRows (h : e.Inv) :
    ⟨key, x⟩ ∈ e.rangeRows lower upper s ↔ (lower ≤ key ∧ key < upper) ∧ e.Shows key s x := by
  rw [rangeRows, List.mem_append, mem_scanRangeVersions h.memtable_tiled, List.mem_flatMap]
  constructor
  · rintro (⟨hrange, hsees, hmem⟩ | ⟨i, hi, hmem⟩)
    · exact ⟨hrange, hsees, .inl hmem⟩
    · split at hmem
      · cases hmem
      · obtain ⟨hrow, hdropped⟩ := List.mem_filter.mp hmem
        obtain ⟨hrange, hsees, hversion⟩ := mem_scanRows.mp hrow
        exact ⟨hrange, hsees, .inr ⟨by simpa using hdropped, i, mem_levelFiles.mp hi, hversion⟩⟩
  · rintro ⟨hrange, hsees, hmem | ⟨hdropped, i, hi, v, hv, hstored⟩⟩
    · exact .inl ⟨hrange, hsees, hmem⟩
    · refine .inr ⟨i, mem_levelFiles.mpr hi, ?_⟩
      rw [not_outsideRange h hi (List.ne_nil_of_mem hv) hrange]
      exact List.mem_filter.mpr ⟨mem_scanRows.mpr ⟨hrange, hsees, v, hv, hstored⟩,
        by simpa using hdropped⟩

theorem mem_allRows : ⟨key, x⟩ ∈ e.allRows s ↔ e.Shows key s x := by
  rw [allRows, List.mem_append, List.mem_filter, ← mem_versionsOf, MemTable.versionsOf_drainInto,
    List.mem_flatMap]
  constructor
  · rintro (⟨hmem, hsees⟩ | ⟨i, hi, hmem⟩)
    · exact ⟨hsees, .inl hmem⟩
    · obtain ⟨hrow, hdropped⟩ := List.mem_filter.mp hmem
      obtain ⟨hrow, hsees⟩ := List.mem_filter.mp hrow
      rw [← mem_versionsOf, versionsOf_readAll, List.mem_map] at hrow
      exact ⟨hsees, .inr ⟨by simpa using hdropped, i, mem_levelFiles.mp hi, hrow⟩⟩
  · rintro ⟨hsees, hmem | ⟨hdropped, i, hi, v, hv, hstored⟩⟩
    · exact .inl ⟨hmem, hsees⟩
    · refine .inr ⟨i, mem_levelFiles.mpr hi, List.mem_filter.mpr ⟨List.mem_filter.mpr ⟨?_, hsees⟩,
        by simpa using hdropped⟩⟩
      rw [← mem_versionsOf, versionsOf_readAll, List.mem_map]
      exact ⟨v, hv, hstored⟩

/-! ## The newest version that is shown

The same argument serves scans of all files and of some of them. -/

def ShowsIn (e : Engine) (sources : ℕ → Prop) (key : Bytes) (s : ℕ) (x : VersionedValue) : Prop :=
  x.visibleAt s = true ∧
    (x ∈ (e.memtable.chain key).versions ∨
      e.isDroppedPrefix key = false ∧
        ∃ i, sources i ∧ ∃ v ∈ versionsOf (e.rowsOf i) key, v.stored = x)

def stampsIn (e : Engine) (sources : ℕ → Prop) (key : Bytes) : Set (ℕ × Option Bytes) :=
  stamps (e.memtable.chain key).versions ∪
    {p | ∃ i, sources i ∧ ∃ v ∈ versionsOf (e.rowsOf i) key, v.stamp = p}

variable {sources : ℕ → Prop} {p : ℕ × Option Bytes}

theorem stampsIn_isLive (e : Engine) (key : Bytes) :
    e.stampsIn e.IsLive key = e.heldStamps key := by
  ext p
  refine or_congr Iff.rfl ⟨?_, ?_⟩
  · rintro ⟨i, hi, v, hv, rfl⟩
    exact ⟨v, ⟨i, hi, hv⟩, rfl⟩
  · rintro ⟨v, ⟨i, hi, hv⟩, rfl⟩
    exact ⟨i, hi, v, hv, rfl⟩

theorem stampsIn_subset (hlive : ∀ i, sources i → e.IsLive i) (key : Bytes) :
    e.stampsIn sources key ⊆ e.heldStamps key := by
  rw [← stampsIn_isLive]
  rintro p (hp | ⟨i, hi, hv⟩)
  · exact .inl hp
  · exact .inr ⟨i, hlive i hi, hv⟩

theorem ShowsIn.stamp_mem (h : e.ShowsIn sources key s x) :
    x.stamp ∈ e.stampsIn sources key ∧ x.beginTs ≤ s := by
  obtain ⟨hsees, hmem | ⟨-, i, hi, v, hv, rfl⟩⟩ := h
  · exact ⟨.inl (stamp_mem_stamps hmem), (VersionedValue.visibleAt_eq_true.mp hsees).1⟩
  · exact ⟨.inr ⟨i, hi, v, hv, rfl⟩, (VersionedValue.visibleAt_eq_true.mp hsees).1⟩

theorem Inv.exists_showsIn (h : e.Inv) (hs : s < openEndedTs)
    (hdropped : e.isDroppedPrefix key = false) (hlive : ∀ i, sources i → e.IsLive i)
    (hp : p ∈ e.stampsIn sources key) (hps : p.1 ≤ s) :
    ∃ x, e.ShowsIn sources key s x ∧ p.1 ≤ x.beginTs := by
  rcases hp with ⟨v, hv, rfl⟩ | ⟨i, hi, v, hv, rfl⟩
  · obtain ⟨u, hu, hsees, hle⟩ := exists_visible_ge (h.memtable_tiled key)
      (e.memtable.chain key).descending hs hv hps
    exact ⟨u, ⟨hsees, .inl hu⟩, hle⟩
  · obtain ⟨u, hu, hsees, hle⟩ := exists_visible_ge (h.tiled i (hlive i hi) key)
      ((h.sorted i (hlive i hi)).descending key) hs hv hps
    exact ⟨u.stored, ⟨hsees, .inr ⟨hdropped, i, hi, u, hu, rfl⟩⟩, hle⟩

theorem Inv.newest_showsIn_iff (h : e.Inv) (hs : s < openEndedTs)
    (hdropped : e.isDroppedPrefix key = false) (hlive : ∀ i, sources i → e.IsLive i) :
    Newest.IsNewestAt Prod.fst (e.stampsIn sources key) s p ↔
      ∃ x, e.ShowsIn sources key s x ∧ x.stamp = p ∧
        ∀ y, e.ShowsIn sources key s y → y.beginTs ≤ x.beginTs := by
  constructor
  · rintro ⟨hmem, hbegun, hmax⟩
    obtain ⟨x, hx, hle⟩ := h.exists_showsIn hs hdropped hlive hmem hbegun
    have hbound : ∀ y, e.ShowsIn sources key s y → y.beginTs ≤ p.1 := fun y hy ↦
      hmax y.stamp hy.stamp_mem.1 hy.stamp_mem.2
    have hstamp : x.stamp = p := h.unique key _ (stampsIn_subset hlive key hx.stamp_mem.1) _
      (stampsIn_subset hlive key hmem) (le_antisymm (hbound x hx) hle)
    exact ⟨x, hx, hstamp, fun y hy ↦ (hbound y hy).trans hle⟩
  · rintro ⟨x, hx, rfl, hmax⟩
    refine ⟨hx.stamp_mem.1, hx.stamp_mem.2, fun q hq hqs ↦ ?_⟩
    obtain ⟨y, hy, hle⟩ := h.exists_showsIn hs hdropped hlive hq hqs
    exact hle.trans (hmax y hy)

theorem mem_map_entry :
    (key, x) ∈ rows.map (fun row ↦ (row.key, row.version)) ↔ ⟨key, x⟩ ∈ rows := by
  rw [List.mem_map]
  constructor
  · rintro ⟨⟨_, _⟩, hmem, heq⟩
    obtain ⟨rfl, rfl⟩ := Prod.mk.inj heq
    exact hmem
  · exact fun hmem ↦ ⟨_, hmem, rfl⟩

theorem Inv.newestRows_iff (h : e.Inv) (hs : s < openEndedTs)
    (hdropped : e.isDroppedPrefix key = false) (hlive : ∀ i, sources i → e.IsLive i)
    (inRange : Prop) (hrows : ∀ x, ⟨key, x⟩ ∈ rows ↔ inRange ∧ e.ShowsIn sources key s x)
    (p : ℕ × Option Bytes) :
    (∃ x, (newestRows rows)[key]? = some x ∧ x.stamp = p) ↔
      inRange ∧ Newest.IsNewestAt Prod.fst (e.stampsIn sources key) s p := by
  have hentry : ∀ x, (key, x) ∈ rows.map (fun row ↦ (row.key, row.version)) ↔
      inRange ∧ e.ShowsIn sources key s x := fun x ↦ mem_map_entry.trans (hrows x)
  constructor
  · rintro ⟨x, hx, rfl⟩
    obtain ⟨hmem, hmax⟩ := Newest.isNewest_of_merged hx
    obtain ⟨hrange, hshows⟩ := (hentry x).mp hmem
    refine ⟨hrange, (h.newest_showsIn_iff hs hdropped hlive).mpr ⟨x, hshows, rfl, ?_⟩⟩
    exact fun y hy ↦ hmax y ((hentry y).mpr ⟨hrange, hy⟩)
  · rintro ⟨hrange, hnewest⟩
    obtain ⟨x, hshows, hstamp, hmax⟩ := (h.newest_showsIn_iff hs hdropped hlive).mp hnewest
    obtain ⟨y, hy⟩ : ∃ y, (newestRows rows)[key]? = some y :=
      Newest.exists_merged ((hentry x).mpr ⟨hrange, hshows⟩)
    obtain ⟨hmem, hbound⟩ := Newest.isNewest_of_merged hy
    have hyshows := ((hentry y).mp hmem).2
    have hsame : y.beginTs = x.beginTs :=
      le_antisymm (hmax y hyshows) (hbound x ((hentry x).mpr ⟨hrange, hshows⟩))
    have hunique := h.unique key _ (stampsIn_subset hlive key hyshows.stamp_mem.1) _
      (stampsIn_subset hlive key hshows.stamp_mem.1) hsame
    exact ⟨y, hy, hunique.trans hstamp⟩

/-- The merge of all that is shown has the visible version of each key. -/
theorem Inv.newestRows_value_iff (h : e.Inv) (hs : s < openEndedTs)
    (hdropped : e.isDroppedPrefix key = false) (inRange : Prop)
    (hrows : ∀ x, ⟨key, x⟩ ∈ rows ↔ inRange ∧ e.Shows key s x) (value : Option Bytes) :
    (∃ x, (newestRows rows)[key]? = some x ∧ x.value = value) ↔
      inRange ∧ ∃ ts, e.VisibleVersion key s (ts, value) := by
  have hiff := h.newestRows_iff hs hdropped (fun _ hi ↦ hi) inRange hrows
  rw [stampsIn_isLive] at hiff
  constructor
  · rintro ⟨x, hx, rfl⟩
    obtain ⟨hrange, hvisible⟩ := (hiff x.stamp).mp ⟨x, hx, rfl⟩
    exact ⟨hrange, x.beginTs, hvisible⟩
  · rintro ⟨hrange, ts, hvisible⟩
    obtain ⟨x, hx, hstamp⟩ := (hiff (ts, value)).mpr ⟨hrange, hvisible⟩
    exact ⟨x, hx, congrArg Prod.snd hstamp⟩

theorem newestRows_pairwise (rows : List VersionedRow) :
    ((newestRows rows).toList.map Prod.fst).Pairwise (· < ·) := by
  rw [List.pairwise_map]
  exact (newestRows rows).ordered_keys_toList.imp fun h ↦ (ByteOrder.compare_eq_lt_iff _ _).mp h

theorem mem_scanRange {value : Bytes} :
    (key, value) ∈ e.scanRange lower upper s ↔
      ∃ x, (newestRows (e.rangeRows lower upper s))[key]? = some x ∧ x.value = some value := by
  rw [scanRange_eq, List.mem_filterMap]
  constructor
  · rintro ⟨⟨key', x⟩, hmem, hsome⟩
    obtain ⟨value', hvalue, heq⟩ := Option.map_eq_some_iff.mp hsome
    obtain ⟨rfl, rfl⟩ := Prod.mk.inj heq
    exact ⟨x, ExtTreeMap.mem_toList_iff_getElem?_eq_some.mp hmem, hvalue⟩
  · rintro ⟨x, hx, hvalue⟩
    refine ⟨(key, x), ExtTreeMap.mem_toList_iff_getElem?_eq_some.mpr hx, ?_⟩
    rw [hvalue]
    rfl

theorem mem_scanAll {value : Option Bytes} :
    (key, value) ∈ e.scanAll s ↔
      ∃ x, (newestRows (e.allRows s))[key]? = some x ∧ x.value = value := by
  rw [scanAll_eq, List.mem_map]
  constructor
  · rintro ⟨⟨key', x⟩, hmem, heq⟩
    obtain ⟨rfl, hvalue⟩ := Prod.mk.inj heq
    exact ⟨x, ExtTreeMap.mem_toList_iff_getElem?_eq_some.mp hmem, hvalue⟩
  · rintro ⟨x, hx, rfl⟩
    exact ⟨(key, x), ExtTreeMap.mem_toList_iff_getElem?_eq_some.mpr hx, rfl⟩

theorem scanRange_pairwise (e : Engine) (lower upper : Bytes) (s : ℕ) :
    ((e.scanRange lower upper s).map Prod.fst).Pairwise (· < ·) := by
  rw [scanRange_eq, List.pairwise_map, List.pairwise_filterMap]
  refine (List.pairwise_map.mp (newestRows_pairwise _)).imp fun hlt first hfirst second hsecond ↦ ?_
  obtain ⟨_, -, rfl⟩ := Option.map_eq_some_iff.mp hfirst
  obtain ⟨_, -, rfl⟩ := Option.map_eq_some_iff.mp hsecond
  exact hlt

theorem scanAll_pairwise (e : Engine) (s : ℕ) : ((e.scanAll s).map Prod.fst).Pairwise (· < ·) := by
  rw [scanAll_eq, List.map_map]
  exact newestRows_pairwise (e.allRows s)

theorem isDroppedPrefix_of_empty (h : e.droppedTables = ∅) (key : Bytes) :
    e.isDroppedPrefix key = false := by
  rw [isDroppedPrefix, h]
  exact ExtTreeSet.contains_empty

end Engine

namespace LoggedEngine

/-- Scans are exact: in key order they have the visible version of each key. -/
theorem scans_exact {ops : List TableOp} {st : LoggedEngine}
    (hrun : run tableStep initial ops = some st)
    (hdropped : st.engine.droppedTables = ∅) {s : ℕ} (hs : s < openEndedTs) :
    (∀ lower upper, lower ≤ upper →
      ((st.engine.scanRange lower upper s).map Prod.fst).Pairwise (· < ·) ∧
      ∀ key value, (key, value) ∈ st.engine.scanRange lower upper s ↔
        (lower ≤ key ∧ key < upper) ∧ ∃ ts, st.engine.VisibleVersion key s (ts, some value)) ∧
    ((st.engine.scanAll s).map Prod.fst).Pairwise (· < ·) ∧
    ∀ key value, (key, value) ∈ st.engine.scanAll s ↔
      ∃ ts, st.engine.VisibleVersion key s (ts, value) := by
  have hinv := engine_inv_of_run hrun
  have hkept := fun key ↦ Engine.isDroppedPrefix_of_empty hdropped key
  refine ⟨fun lower upper _ ↦ ⟨Engine.scanRange_pairwise _ _ _ _, fun key value ↦ ?_⟩,
    Engine.scanAll_pairwise _ _, fun key value ↦ ?_⟩
  · rw [Engine.mem_scanRange]
    exact hinv.newestRows_value_iff hs (hkept key) _ (fun _ ↦ Engine.mem_rangeRows hinv) _
  · have hiff := hinv.newestRows_value_iff hs (hkept key) True
      (fun _ ↦ Engine.mem_allRows.trans (true_and _).symm.to_iff) value
    rw [Engine.mem_scanAll, hiff, true_and]

def overwritten : List TableOp :=
  [.call (.write 1 [.put [107] [1]]), .call (.flush Engine.plainEnv 1000),
    .call (.write 2 [.put [107] [2]])]

theorem run_overwritten : ∃ st, run tableStep initial overwritten = some st ∧
    st.engine = ((Engine.initial.committed 1 [.put [107] [1]]).flush Engine.plainEnv).committed 2
      [.put [107] [2]] := by
  have hplain : ∀ op ∈ overwritten, op.Plain := by decide
  exact initial.exists_run_plain hplain

theorem heldStamps_overwritten (p : ℕ × Option Bytes) :
    p ∈ (((Engine.initial.committed 1 [.put [107] [1]]).flush Engine.plainEnv).committed 2
      [.put [107] [2]]).heldStamps [107] ↔ p = (2, some [2]) ∨ p = (1, some [1]) := by
  have hinv : (Engine.initial.committed 1 [.put [107] [1]]).Inv := Engine.inv_initial.committed
  rw [Engine.mem_heldStamps_committed (hinv.flush _), Engine.heldStamps_flush hinv.versionSet,
    Engine.mem_heldStamps_committed Engine.inv_initial, Engine.heldStamps_initial]
  have hseq : ((Engine.initial.committed 1 [.put [107] [1]]).flush Engine.plainEnv).commitSeq = 2 :=
    rfl
  have hnet : ∀ value : Bytes, netEffect [.put [107] value] [107] = some (some value) := fun _ ↦ rfl
  rw [hseq, hnet, hnet]
  obtain ⟨ts, value⟩ := p
  simp [Engine.initial, eq_comm]

theorem scans_exact_overwritten :
    ∃ st, run tableStep initial overwritten = some st ∧
      ([107], [2]) ∈ st.engine.scanRange [107] [108] 2 ∧
      ([107], some [1]) ∈ st.engine.scanAll 1 := by
  obtain ⟨st, hrun, hengine⟩ := run_overwritten
  have hdropped : st.engine.droppedTables = ∅ := by
    rw [hengine]
    rfl
  have hheld := heldStamps_overwritten
  rw [← hengine] at hheld
  refine ⟨st, hrun, ?_, ?_⟩
  · refine (((scans_exact hrun hdropped (by decide)).1 [107] [108] (by decide)).2 _ _).mpr
      ⟨by decide, 2, (hheld _).mpr (.inl rfl), le_rfl, fun q hq _ ↦ ?_⟩
    rcases (hheld q).mp hq with rfl | rfl <;> decide
  · refine ((scans_exact hrun hdropped (by decide)).2.2 _ _).mpr
      ⟨1, (hheld _).mpr (.inr rfl), le_rfl, fun q _ hq ↦ hq⟩

/-- Versions that nothing supersedes end at the greatest timestamp, so a snapshot
there sees none of them. -/
theorem scan_at_greatest_timestamp :
    ∃ st, run tableStep initial overwritten = some st ∧
      st.engine.droppedTables = ∅ ∧ st.engine.watermark ≤ openEndedTs ∧
      st.engine.VisibleVersion [107] openEndedTs (2, some [2]) ∧
      st.engine.scanRange [107] [108] openEndedTs = [] ∧ st.engine.scanAll openEndedTs = [] := by
  obtain ⟨st, hrun, hengine⟩ := run_overwritten
  have hheld := heldStamps_overwritten
  rw [← hengine] at hheld
  refine ⟨st, hrun, ?_, ?_, ⟨(hheld _).mpr (.inl rfl), by decide, fun q hq _ ↦ ?_⟩, ?_, ?_⟩
  · rw [hengine]
    rfl
  · rw [hengine]
    decide
  · rcases (hheld q).mp hq with rfl | rfl <;> decide
  · rw [hengine]
    decide
  · rw [hengine]
    decide

end LoggedEngine

end HatP
