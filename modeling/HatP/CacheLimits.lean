import HatP.Concurrent.CompactionReaders
import HatP.Tables.Predicate

/-!
# The limits of the caches

Four caches hold what can be read again: bloom filters, key indexes, the routes
of hot keys and column statistics.  Each is emptied when it is full and one more
entry comes, except that the read path puts the key indexes it loads into their
cache without looking at its size.
-/

namespace HatP

open DerivedFiles Interference Transition
open Std (ExtTreeMap ExtTreeSet)

def columnStatsCacheMax : ℕ := 1024

structure CachedEngine (σ : Type*) where
  reads : ReadState
  tableSchemas : ExtTreeMap String (TableSchema σ)
  columnStats : ExtTreeMap ℕ (ExtTreeMap String (TableColumnStats σ))

inductive CacheOp (σ : Type*)
  /-- Commits, drops and registrations leave these. -/
  | install (memtable : MemTable) (droppedTables : ExtTreeSet Bytes)
      (tableSchemas : ExtTreeMap String (TableSchema σ))
  | get (key : Bytes) (snapshot : ℕ)
  | flush (env : AttemptEnv) (manifest : ManifestResult)
  | compact (sourceLevel targetLevel watermark : ℕ) (env : AttemptEnv) (manifest : ManifestResult)
      (unlinks : ℕ → Unlink)
  | subCompact (sourceLevel targetLevel watermark : ℕ) (env : ℕ → AttemptEnv)
      (manifest : ManifestResult) (unlinks : ℕ → Unlink)
  /-- The engine is opened again, with whatever the manifest file then gives. -/
  | reopen (versionSet : VersionSet)

namespace CachedEngine

section Operations

variable {σ : Type*} [PartialOrder σ] [DecidableLT σ]

/-- The table of a key, read with `from_utf8_lossy`; a bare key has none. -/
def tableName (lossy : Bytes → String) (key : Bytes) : Option String :=
  let keyPrefix := keyTablePrefix key
  if keyPrefix.getLast? = some 0 then some (lossy keyPrefix.dropLast) else none

def byTable (lossy : Bytes → String) (rows : List VersionedRow) :
    ExtTreeMap String (List VersionedRow) :=
  rows.foldl (fun groups row ↦
    match tableName lossy row.key with
    | none => groups
    | some table => groups.alter table fun rows ↦ some (rows.getD [] ++ [row])) ∅

def fileStats (lossy : Bytes → String) (schemas : ExtTreeMap String (TableSchema σ))
    (rows : List VersionedRow) : ExtTreeMap String (TableColumnStats σ) :=
  (byTable lossy rows).toList.foldl (fun stats (table, tableRows) ↦
    match schemas[table]? with
    | none => stats
    | some schema =>
      stats.insert table (tableRows.foldl (TableColumnStats.addRow schema) .empty)) ∅

variable (lossy : Bytes → String)

/-- What `compute_column_stats` leaves in the cache. -/
def computeColumnStats (c : CachedEngine σ)
    (cache : ExtTreeMap ℕ (ExtTreeMap String (TableColumnStats σ))) (fileId : ℕ)
    (rows : List VersionedRow) : ExtTreeMap ℕ (ExtTreeMap String (TableColumnStats σ)) :=
  let stats := fileStats lossy c.tableSchemas rows
  if stats.isEmpty then cache else Store.fill (some columnStatsCacheMax) cache fileId stats

def flush (c : CachedEngine σ) (env : AttemptEnv) (manifest : ManifestResult) : CachedEngine σ :=
  let rows := c.reads.memtable.drainInto
  let store := c.reads.toSidecarStore.flush rows env manifest
  if rows = [] then c
  else
    let reads := { c.reads with toSidecarStore := store, memtable := c.reads.memtable.clear }
    match env.sst with
    | .failed _ => { c with reads := reads }
    | .written =>
      { c with
        reads := reads
        columnStats :=
          c.computeColumnStats lossy c.columnStats c.reads.versionSet.nextFileId rows }

/-- The inputs whose statistics go: all that are unlinked after the commit. -/
def retiredInputs (inputs : List ℕ) (unlinks : ℕ → Unlink) : ManifestResult → List ℕ
  | .appended => inputs.takeWhile fun input ↦ (unlinks input).sst
  | .failed | .rewriteFailed => []

def compactInto (c : CachedEngine σ) (sourceLevel targetLevel watermark : ℕ)
    (chunks : List (List ℕ)) (env : ℕ → AttemptEnv) (manifest : ManifestResult)
    (unlinks : ℕ → Unlink) : CachedEngine σ :=
  let store := c.reads.toSidecarStore
  let inputs := store.compactionInputs sourceLevel targetLevel
  if inputs.length < 2 then c
  else
    let outputs :=
      (SidecarStore.compactChunks watermark store.versionSet.nextFileId env chunks 0 store).1
    let written := (outputs.filterMap id).foldl
      (fun cache o ↦ c.computeColumnStats lossy cache o.fileId o.rows) c.columnStats
    { c with
      reads := { c.reads with
        toSidecarStore := store.compactInto sourceLevel targetLevel watermark chunks env manifest
          unlinks }
      columnStats := match outputs.mapM id with
        | none => written
        | some _ => (retiredInputs inputs unlinks manifest).foldl (·.erase ·) written }

def step (c : CachedEngine σ) : CacheOp σ → Option (CachedEngine σ)
  | .install memtable droppedTables tableSchemas =>
    some { c with
      reads := { c.reads with memtable := memtable, droppedTables := droppedTables }
      tableSchemas := tableSchemas }
  | .get key snapshot => some { c with reads := (ReadState.get key snapshot).exec c.reads }
  | .flush env manifest => some (c.flush lossy env manifest)
  | .compact src tgt watermark env manifest unlinks =>
    some (c.compactInto lossy src tgt watermark [c.reads.compactionInputs src tgt] (fun _ ↦ env)
      manifest unlinks)
  | .subCompact src tgt watermark env manifest unlinks =>
    some (c.compactInto lossy src tgt watermark (c.reads.chunks src tgt) env manifest unlinks)
  | .reopen versionSet =>
    some { c with
      reads := { c.reads with
        versionSet := versionSet
        blooms := c.reads.blooms.reopened
        keyIndexes := c.reads.keyIndexes.reopened
        hotKeyCache := ∅ }
      columnStats := ∅ }

end Operations

variable {σ : Type*}

structure Bounded (c : CachedEngine σ) : Prop where
  blooms : c.reads.blooms.cache.size ≤ SidecarStore.bloomCacheMax
  keyIndexes : c.reads.keyIndexes.cache.size ≤ SidecarStore.keyIndexCacheMax
  hotKeys : c.reads.hotKeyCache.size ≤ Engine.hotKeyCacheMax
  columnStats : c.columnStats.size ≤ columnStatsCacheMax

end CachedEngine

/-! ## What a read loads -/

theorem size_hotKeyCacheInsert_le (cache : ExtTreeMap Bytes ℕ) (key : Bytes) (fileId : ℕ) :
    (Engine.hotKeyCacheInsert cache key fileId).size ≤ Engine.hotKeyCacheMax := by
  rw [Engine.hotKeyCacheInsert]
  split
  · exact ExtTreeMap.size_insert_le.trans (by decide)
  · exact ExtTreeMap.size_insert_le.trans (by omega)

namespace ReadState

/-- The files that a read of `key` can be led to. -/
def reachedFiles (s : ReadState) (key : Bytes) : List ℕ :=
  s.hotKeyCache[key]?.toList ++ s.versionSet.candidateFiles key

/-- Of these, the ones whose key index is on disk and not in memory. -/
def loadable (s : ReadState) (key : Bytes) : List ℕ :=
  ((s.reachedFiles key).filter fun fileId ↦
    s.keyIndexes.files.contains fileId && !s.keyIndexes.cache.contains fileId).dedup

/-- The state of a read of `key` that began in `s`. -/
structure During (s : ReadState) (key : Bytes) (t : ReadState) : Prop where
  versionSet : t.versionSet = s.versionSet
  files : t.keyIndexes.files = s.keyIndexes.files
  routes : ∀ fileId, t.hotKeyCache[key]? = some fileId → fileId ∈ s.reachedFiles key
  loaded : ∀ fileId ∈ t.keyIndexes.cache, fileId ∈ s.keyIndexes.cache ∨
    fileId ∈ s.reachedFiles key ∧ fileId ∈ s.keyIndexes.files
  blooms : t.blooms.cache.size ≤ SidecarStore.bloomCacheMax
  hotKeys : t.hotKeyCache.size ≤ Engine.hotKeyCacheMax

section During

open Program

variable {s : ReadState} {key : Bytes} {snapshot : ℕ}

theorem keeps_bloomFor (fileId : ℕ) : (bloomFor fileId).Keeps (s.During key) := by
  refine keeps_read_bind fun t _ ↦ ?_
  cases t.blooms.cache[fileId]? with
  | some cached => exact keeps_pure _
  | none =>
    refine keeps_read_bind fun u _ ↦ ?_
    cases u.blooms.files[fileId]? with
    | none => exact keeps_pure _
    | some filter =>
      refine keeps_access_bind fun v hv ↦ ⟨?_, keeps_pure _⟩
      exact { hv with blooms := Store.size_fill_le (by decide) }

theorem keeps_keyIndexFor {fileId : ℕ} (hreached : fileId ∈ s.reachedFiles key) :
    (keyIndexFor fileId).Keeps (s.During key) := by
  refine keeps_read_bind fun t _ ↦ ?_
  cases t.keyIndexes.cache[fileId]? with
  | some cached => exact keeps_pure _
  | none =>
    refine keeps_read_bind fun u hu ↦ ?_
    cases hfile : u.keyIndexes.files[fileId]? with
    | none => exact keeps_pure _
    | some index =>
      refine keeps_access_bind fun v hv ↦ ⟨{ hv with loaded := ?_ }, keeps_pure _⟩
      intro other hother
      change other ∈ v.keyIndexes.cache.insert fileId index at hother
      rcases ExtTreeMap.mem_insert.mp hother with hsame | hold
      · obtain rfl : fileId = other := Nat.compare_eq_eq.mp hsame
        refine .inr ⟨hreached, ?_⟩
        rw [← hu.files, ExtTreeMap.mem_iff_isSome_getElem?, hfile]
        rfl
      · exact hv.loaded other hold

theorem keeps_probe (versionSet : VersionSet) {fileId : ℕ}
    (hreached : fileId ∈ s.reachedFiles key) :
    (probe versionSet key snapshot fileId).Keeps (s.During key) := by
  rw [probe]
  split
  next => exact keeps_pure _
  next =>
    refine (keeps_bloomFor fileId).bind fun filter ↦ ?_
    split
    next => exact keeps_pure _
    next =>
      refine (keeps_keyIndexFor hreached).bind fun index ↦ ?_
      cases index with
      | some index =>
        dsimp only
        cases index.get key with
        | some version | none => exact keeps_pure _
      | none =>
        refine keeps_read_bind fun t _ ↦ ?_
        cases t.ssts[fileId]? with
        | none => exact keeps_pure _
        | some rows =>
          dsimp only
          cases sstGet rows key snapshot with
          | some version | none => exact keeps_pure _

theorem keeps_visited {α : Type} {route : ReadState → ExtTreeMap Bytes ℕ} {rest : List ℕ}
    {f : Unit → Program ReadState α} (hroute : ∀ t, s.During key t →
      (∀ fileId, (route t)[key]? = some fileId → fileId ∈ s.reachedFiles key) ∧
        (route t).size ≤ Engine.hotKeyCacheMax)
    (hf : (f ()).Keeps (s.During key)) : (visited route rest >>= f).Keeps (s.During key) :=
  keeps_access_bind fun t ht ↦
    ⟨{ ht with routes := (hroute t ht).1, hotKeys := (hroute t ht).2 }, hf⟩

theorem keeps_search (versionSet : VersionSet) {files : List ℕ}
    (hreached : ∀ fileId ∈ files, fileId ∈ s.reachedFiles key)
    (newest : Option VersionedValue) (found : Bool) :
    (search versionSet key snapshot files newest found).Keeps (s.During key) := by
  induction files generalizing newest found with
  | nil => exact keeps_pure _
  | cons fileId rest ih =>
    have hfile := hreached fileId (.head _)
    have hrest := ih fun other hother ↦ hreached other (.tail _ hother)
    have hsame : ∀ t, s.During key t →
        (∀ fileId, t.hotKeyCache[key]? = some fileId → fileId ∈ s.reachedFiles key) ∧
          t.hotKeyCache.size ≤ Engine.hotKeyCacheMax := fun t ht ↦ ⟨ht.routes, ht.hotKeys⟩
    rw [search]
    dsimp only
    split
    next => exact keeps_visited hsame (hrest newest found)
    next =>
      refine (keeps_probe versionSet hfile).bind fun result ↦ ?_
      rcases result with err | visible | ⟨visible, indexed⟩
      · exact keeps_pure _
      · exact keeps_visited hsame (hrest newest found)
      · refine keeps_visited (fun t ht ↦ ?_) (hrest _ _)
        split
        next =>
          refine ⟨fun other hother ↦ ?_, size_hotKeyCacheInsert_le _ _ _⟩
          rw [Engine.hotKeyCacheInsert_self] at hother
          cases hother
          exact hfile
        next => exact hsame t ht

theorem keeps_get (snapshot : ℕ) : (get key snapshot).Keeps (s.During key) := by
  rw [get]
  refine keeps_read_bind fun t _ ↦ ?_
  split
  next => exact keeps_pure _
  next =>
    refine keeps_read_bind fun t _ ↦ ?_
    cases t.memtable.get key snapshot with
    | some version => exact keeps_pure _
    | none =>
      have hhit : (hotKeyHit key snapshot).Keeps (s.During key) := by
        refine keeps_read_bind fun u hu ↦ ?_
        cases hroute : u.hotKeyCache[key]? with
        | none => exact keeps_pure _
        | some fileId =>
          exact (keeps_keyIndexFor (hu.routes fileId hroute)).bind fun _ ↦ keeps_pure _
      refine hhit.bind fun hit ↦ ?_
      cases hit with
      | some version => exact keeps_pure _
      | none =>
        refine keeps_access_bind fun u hu ↦ ⟨{ hu with }, ?_⟩
        refine keeps_search _ (fun fileId hfile ↦ ?_) none false
        rw [hu.versionSet] at hfile
        exact List.mem_append_right _ hfile

theorem During.size_keyIndexes_le {t : ReadState} (h : s.During key t) :
    t.keyIndexes.cache.size ≤ s.keyIndexes.cache.size + (s.loadable key).length := by
  have hsub : t.keyIndexes.cache.keys ⊆ s.keyIndexes.cache.keys ++ s.loadable key := by
    intro fileId hmem
    rw [ExtTreeMap.mem_keys] at hmem
    rw [List.mem_append, ExtTreeMap.mem_keys]
    by_cases hcached : fileId ∈ s.keyIndexes.cache
    · exact .inl hcached
    · obtain ⟨hreached, hfile⟩ := (h.loaded fileId hmem).resolve_left hcached
      refine .inr (List.mem_dedup.mpr (List.mem_filter.mpr ⟨hreached, ?_⟩))
      rw [Bool.and_eq_true, Bool.not_eq_true', ← Bool.not_eq_true, ExtTreeMap.contains_iff_mem,
        ExtTreeMap.contains_iff_mem]
      exact ⟨hfile, hcached⟩
  have hle := (List.subperm_of_subset ExtTreeMap.nodup_keys hsub).length_le
  rwa [List.length_append, ExtTreeMap.length_keys, ExtTreeMap.length_keys] at hle

end During

end ReadState

/-! ## What the writers leave -/

namespace SidecarStore

/-- The caches of both sidecars are within their limits. -/
structure Within (s : SidecarStore) : Prop where
  blooms : s.blooms.cache.size ≤ bloomCacheMax
  keyIndexes : s.keyIndexes.cache.size ≤ keyIndexCacheMax

variable {s : SidecarStore}

section

variable (h : s.Within)

include h

theorem Within.writeFile (fileId : ℕ) (rows : List VersionedRow)
    (env : AttemptEnv) : (s.writeFile fileId rows env).2.Within := by
  rw [SidecarStore.writeFile]
  cases env.sst with
  | failed kept => exact ⟨h.blooms, h.keyIndexes⟩
  | written =>
    exact ⟨Store.size_cache_write_le (by decide) h.blooms,
      Store.size_cache_write_le (by decide) h.keyIndexes⟩

theorem Within.appendBatch (edits : List VersionEdit) (manifest : ManifestResult) :
    (s.appendBatch edits manifest).2.Within := by
  cases manifest <;> exact ⟨h.blooms, h.keyIndexes⟩

theorem Within.flush (rows : List VersionedRow) (env : AttemptEnv)
    (manifest : ManifestResult) : (s.flush rows env manifest).Within := by
  rw [SidecarStore.flush]
  split
  · exact h
  · have hfile := h.writeFile s.versionSet.nextFileId rows env
    dsimp only
    split
    · rename_i heq
      rw [heq] at hfile
      exact hfile
    · rename_i heq
      rw [heq] at hfile
      exact hfile.appendBatch _ manifest

theorem Within.compactChunk (chunk : List ℕ) (watermark fileId : ℕ)
    (env : AttemptEnv) : (s.compactChunk chunk watermark fileId env).2.Within := by
  rw [SidecarStore.compactChunk]
  split
  · exact h
  · rename_i files _
    have hfile := h.writeFile fileId (dedupSuperseded (files.flatMap readAll) watermark) env
    dsimp only
    split
    · rename_i heq
      rw [heq] at hfile
      exact hfile
    · rename_i heq
      rw [heq] at hfile
      exact hfile

theorem Within.compactChunks (watermark base : ℕ) (env : ℕ → AttemptEnv)
    (chunks : List (List ℕ)) (index : ℕ) :
    (compactChunks watermark base env chunks index s).2.Within := by
  induction chunks generalizing s index with
  | nil => exact h
  | cons chunk chunks ih =>
    exact ih (h.compactChunk chunk watermark (base + index) (env index)) (index + 1)

theorem Within.unlinkInputs (unlinks : ℕ → Unlink) (inputs : List ℕ) :
    (unlinkInputs unlinks inputs s).Within := by
  induction inputs generalizing s with
  | nil => exact h
  | cons input inputs ih =>
    rw [SidecarStore.unlinkInputs]
    split
    · exact ih ⟨(Store.size_cache_retire_le _ _ _).trans h.blooms,
        (Store.size_cache_retire_le _ _ _).trans h.keyIndexes⟩
    · exact h

theorem Within.commitCompaction (inputs : List ℕ) (src tgt : ℕ)
    (outputs : List Engine.Output) (manifest : ManifestResult) (unlinks : ℕ → Unlink) :
    (s.commitCompaction inputs src tgt outputs manifest unlinks).Within := by
  have happended := h.appendBatch
    (Engine.compactionEdits s.versionSet inputs src tgt outputs) manifest
  rw [SidecarStore.commitCompaction]
  split
  · rename_i heq
    rw [heq] at happended
    exact happended
  · rename_i heq
    rw [heq] at happended
    exact happended.unlinkInputs unlinks inputs

theorem Within.compactInto (src tgt watermark : ℕ) (chunks : List (List ℕ))
    (env : ℕ → AttemptEnv) (manifest : ManifestResult) (unlinks : ℕ → Unlink) :
    (s.compactInto src tgt watermark chunks env manifest unlinks).Within := by
  rw [SidecarStore.compactInto]
  dsimp only
  split
  · exact h
  · have hchunks := h.compactChunks watermark s.versionSet.nextFileId env chunks 0
    split
    · exact hchunks
    · exact hchunks.commitCompaction _ src tgt _ manifest unlinks

end

end SidecarStore

namespace CachedEngine

section Statistics

variable {σ : Type*} [PartialOrder σ] [DecidableLT σ] (lossy : Bytes → String)
  {c : CachedEngine σ} {cache : ExtTreeMap ℕ (ExtTreeMap String (TableColumnStats σ))}

theorem size_computeColumnStats_le (h : cache.size ≤ columnStatsCacheMax) (fileId : ℕ)
    (rows : List VersionedRow) :
    (c.computeColumnStats lossy cache fileId rows).size ≤ columnStatsCacheMax := by
  rw [computeColumnStats]
  split
  · exact h
  · exact Store.size_fill_le (by decide)

theorem size_written_le (h : cache.size ≤ columnStatsCacheMax) (outputs : List Engine.Output) :
    (outputs.foldl (fun cache o ↦ c.computeColumnStats lossy cache o.fileId o.rows) cache).size ≤
      columnStatsCacheMax := by
  induction outputs generalizing cache with
  | nil => exact h
  | cons o outputs ih => exact ih (size_computeColumnStats_le lossy h o.fileId o.rows)

omit [PartialOrder σ] [DecidableLT σ] in
theorem size_foldl_erase_le (inputs : List ℕ) :
    (inputs.foldl (·.erase ·) cache).size ≤ cache.size := by
  induction inputs generalizing cache with
  | nil => exact le_rfl
  | cons input inputs ih => exact ih.trans ExtTreeMap.size_erase_le

end Statistics

variable {σ : Type*} {c : CachedEngine σ}

/-- A read has room for the indexes that it may load, or ends before it looks
into any file. -/
def LoadsFit (c : CachedEngine σ) : CacheOp σ → Prop
  | .get key snapshot =>
    c.reads.droppedTables.contains (keyTablePrefix key) = true ∨
      (c.reads.memtable.get key snapshot).isSome ∨
      c.reads.keyIndexes.cache.size + (c.reads.loadable key).length ≤ SidecarStore.keyIndexCacheMax
  | .install _ _ _ | .flush _ _ | .compact _ _ _ _ _ _ | .subCompact _ _ _ _ _ _ | .reopen _ => True

instance (c : CachedEngine σ) : ∀ op, Decidable (c.LoadsFit op)
  | .get _ _ => inferInstanceAs (Decidable (_ ∨ _ ∨ _))
  | .install _ _ _ | .flush _ _ | .compact _ _ _ _ _ _ | .subCompact _ _ _ _ _ _ | .reopen _ =>
    isTrue trivial

theorem Bounded.within (h : c.Bounded) : c.reads.toSidecarStore.Within := ⟨h.blooms, h.keyIndexes⟩

theorem Bounded.get (h : c.Bounded) {key : Bytes} {snapshot : ℕ}
    (hfit : c.LoadsFit (.get key snapshot)) :
    Bounded { c with reads := (ReadState.get key snapshot).exec c.reads } := by
  by_cases hdropped : c.reads.droppedTables.contains (keyTablePrefix key) = true
  · rw [ReadState.get, Program.exec_read_bind, if_pos hdropped]
    exact h
  cases hmem : c.reads.memtable.get key snapshot with
  | some version =>
    rw [ReadState.get, Program.exec_read_bind, if_neg hdropped, Program.exec_read_bind, hmem]
    exact h
  | none =>
    have hroom : c.reads.keyIndexes.cache.size + (c.reads.loadable key).length ≤
        SidecarStore.keyIndexCacheMax := by
      rcases hfit with hfit | hfit | hfit
      · exact absurd hfit hdropped
      · simp [hmem] at hfit
      · exact hfit
    have hduring : c.reads.During key c.reads := by
      refine ⟨rfl, rfl, fun fileId hroute ↦ ?_, fun _ hmem ↦ .inl hmem, h.blooms, h.hotKeys⟩
      exact List.mem_append_left _ (Option.mem_toList.mpr hroute)
    have hafter := (ReadState.keeps_get snapshot).exec hduring
    exact ⟨hafter.blooms, hafter.size_keyIndexes_le.trans hroom, hafter.hotKeys, h.columnStats⟩

section Runs

variable [PartialOrder σ] [DecidableLT σ] (lossy : Bytes → String)

theorem Bounded.flush (h : c.Bounded) (env : AttemptEnv) (manifest : ManifestResult) :
    (c.flush lossy env manifest).Bounded := by
  have hstore := h.within.flush c.reads.memtable.drainInto env manifest
  unfold CachedEngine.flush
  dsimp only
  split
  · exact h
  · split
    · exact ⟨hstore.blooms, hstore.keyIndexes, h.hotKeys, h.columnStats⟩
    · exact ⟨hstore.blooms, hstore.keyIndexes, h.hotKeys,
        size_computeColumnStats_le lossy h.columnStats _ _⟩

theorem Bounded.compactInto (h : c.Bounded) (src tgt watermark : ℕ) (chunks : List (List ℕ))
    (env : ℕ → AttemptEnv) (manifest : ManifestResult) (unlinks : ℕ → Unlink) :
    (c.compactInto lossy src tgt watermark chunks env manifest unlinks).Bounded := by
  have hstore := h.within.compactInto src tgt watermark chunks env manifest unlinks
  rw [CachedEngine.compactInto]
  dsimp only
  split
  · exact h
  · refine ⟨hstore.blooms, hstore.keyIndexes, h.hotKeys, ?_⟩
    have hwritten := size_written_le (c := c) lossy h.columnStats
    dsimp only
    split
    · exact hwritten _
    · exact (size_foldl_erase_le _).trans (hwritten _)

theorem Bounded.step {op : CacheOp σ} {next : CachedEngine σ} (h : c.Bounded)
    (hfit : c.LoadsFit op) (hstep : c.step lossy op = some next) : next.Bounded := by
  cases op with
  | install memtable droppedTables tableSchemas =>
    cases hstep
    exact ⟨h.blooms, h.keyIndexes, h.hotKeys, h.columnStats⟩
  | get key snapshot =>
    cases hstep
    exact h.get hfit
  | flush env manifest =>
    cases hstep
    exact h.flush lossy env manifest
  | compact src tgt watermark env manifest unlinks =>
    cases hstep
    exact h.compactInto lossy src tgt watermark _ _ manifest unlinks
  | subCompact src tgt watermark env manifest unlinks =>
    cases hstep
    exact h.compactInto lossy src tgt watermark _ env manifest unlinks
  | reopen versionSet =>
    cases hstep
    exact ⟨Nat.zero_le _, Nat.zero_le _, Nat.zero_le _, Nat.zero_le _⟩

/-- As long as the reads have room for the indexes that they load, all four
caches stay within their limits. -/
theorem caches_bounded (c : CachedEngine σ) (hstart : c.Bounded) (ops : List (CacheOp σ))
    (hfit : StepsMeet (step lossy) LoadsFit c ops) :
    Along (step lossy) Bounded c ops :=
  hfit.along (fun _ _ _ h hfit hstep ↦ h.step lossy hfit hstep) (fun _ h ↦ h) hstart

end Runs

section Fixed

def initial : CachedEngine σ := ⟨⟨.initial, ∅, ∅, ∅, [], false, []⟩, ∅, ∅⟩

theorem bounded_initial : (initial : CachedEngine σ).Bounded :=
  ⟨Nat.zero_le _, Nat.zero_le _, Nat.zero_le _, Nat.zero_le _⟩

def plainAttempt : AttemptEnv :=
  ⟨0, 0, .smallest, .written, .written, .written⟩

/-- As many files that hold the key, each flushed right after its commit, and
then one read of it. -/
def flushedThenRead (key : Bytes) (files : ℕ) : List (CacheOp ℕ) :=
  ((List.range files).flatMap fun i ↦
    [.install (MemTable.applyMutationsBatch ∅ (i + 1) [.put key [1]] (i + 1)) ∅ ∅,
      .flush plainAttempt .appended]) ++ [.get key (files + 1)]

theorem caches_bounded_twoFiles :
    (initial : CachedEngine ℕ).Bounded ∧
      StepsMeet (step fun _ ↦ "") LoadsFit initial (flushedThenRead [7] 2) ∧
      Along (step fun _ ↦ "") Bounded initial (flushedThenRead [7] 2) := by
  have hfit : StepsMeet (step fun _ ↦ "") LoadsFit initial (flushedThenRead [7] 2) := by
    decide +kernel
  exact ⟨bounded_initial, hfit, caches_bounded (fun _ ↦ "") initial bounded_initial _ hfit⟩

/-- The last of 257 flushes empties the full cache and the read then loads all
the other indexes. -/
theorem lazy_loads_exceed_limit :
    ∃ c, run (step fun _ ↦ "") initial (flushedThenRead [7] 257) = some c ∧
      SidecarStore.keyIndexCacheMax < c.reads.keyIndexes.cache.size := by
  have hexceeds : (run (step fun _ ↦ "") initial (flushedThenRead [7] 257)).any
      (fun c ↦ decide (SidecarStore.keyIndexCacheMax < c.reads.keyIndexes.cache.size)) = true := by
    decide +kernel
  obtain ⟨c, hrun, hsize⟩ := (Option.any_eq_true _ _).mp hexceeds
  exact ⟨c, hrun, of_decide_eq_true hsize⟩

end Fixed

end CachedEngine

end HatP
