import HatP.Bloom
import HatP.KeyIndex
import HatP.Merge
import HatP.VersionSet

/-!
# The engine

The state of the storage engine and its operations, each as one step: commits,
flushes, the two compactions, snapshot pins and point reads.  What the
environment decides (file sizes, clock, bloom sizing, whether a sidecar write
succeeds) is an argument of the operation.
-/

namespace HatP

/-- An SST on disk with its sidecars; a sidecar whose write failed is absent. -/
structure SstFile where
  rows : List VersionedRow
  keyIndex : Option KeyIndex
  bloom : Option BloomFilter

/-- What the environment decides when one SST is written. -/
structure SstEnv where
  bytes : ℕ
  createdAt : ℕ
  bloom : Option BloomSize
  keyIndexWritten : Bool

def writeBloomFor (rows : List VersionedRow) (size : BloomSize) : BloomFilter :=
  rows.foldl (fun filter row ↦ filter.insert row.key) (BloomFilter.new size)

theorem contains_writeBloomFor {rows : List VersionedRow} {row : VersionedRow} (h : row ∈ rows)
    (size : BloomSize) : (writeBloomFor rows size).contains row.key = true := by
  have hfold : writeBloomFor rows size =
      (rows.map VersionedRow.key).foldl BloomFilter.insert (BloomFilter.new size) := by
    rw [List.foldl_map]
    rfl
  rw [hfold]
  exact BloomFilter.contains_foldl_insert size.numHashes_pos (BloomFilter.sized_new size)
    (List.mem_map_of_mem h)

def SstFile.write (rows : List VersionedRow) (env : SstEnv) : SstFile where
  rows := rows
  keyIndex := if env.keyIndexWritten then some (KeyIndex.fromRows rows) else none
  bloom := env.bloom.map (writeBloomFor rows)

/-- The metadata of the handle: the first and last key in row order. -/
def handleMeta (rows : List VersionedRow) (env : SstEnv) : FileMeta where
  minKey := (rows.head?.map VersionedRow.key).getD []
  maxKey := (rows.getLast?.map VersionedRow.key).getD []
  bytes := env.bytes
  createdAt := env.createdAt

def keyTablePrefix (key : Bytes) : Bytes :=
  match key.findIdx? (· == 0) with
  | some index => key.take (index + 1)
  | none => key

structure Engine where
  memtable : MemTable
  commitSeq : ℕ
  versionSet : VersionSet
  ssts : Std.ExtTreeMap ℕ SstFile
  hotKeyCache : Std.ExtTreeMap Bytes ℕ
  droppedTables : Std.ExtTreeSet Bytes
  pinnedSnapshots : Std.ExtTreeMap ℕ ℕ

/-- The errors that the modelled paths return; an I/O error carries only its
text. -/
inductive EngineError
  | io (message : String)
  | outOfRange (message : String)
  | corrupt (message : String)
  | corruptMessage (message : String)
  | emptyBatch
  | throttled
  | writeConflict (txn : ℕ) (key : Bytes)
  | readWriteConflict (txn : ℕ) (key : Bytes)
deriving DecidableEq

/-- The id that is handed out, and the counter after it. -/
def allocTxId (nextTxId : ℕ) : ℕ × ℕ :=
  let start := if nextTxId = 0 then 1 else nextTxId
  (start, (start + 1) % 2 ^ 64)

theorem allocTxId_eq {nextTxId : ℕ} (hpos : 0 < nextTxId) (hmax : nextTxId < maxU64) :
    allocTxId nextTxId = (nextTxId, nextTxId + 1) := by
  rw [maxU64] at hmax
  rw [allocTxId, if_neg hpos.ne', Nat.mod_eq_of_lt (by omega)]

namespace Engine

def initial : Engine := ⟨∅, 1, .initial, ∅, ∅, ∅, ∅⟩

def rowsOf (e : Engine) (fileId : ℕ) : List VersionedRow :=
  (e.ssts[fileId]?.map SstFile.rows).getD []

/-- The key index of a file.  The in-memory cache holds what the sidecar holds,
so it is not part of the state; a retired file has neither. -/
def keyIndexFor (e : Engine) (fileId : ℕ) : Option KeyIndex :=
  e.ssts[fileId]?.bind SstFile.keyIndex

def bloomFor (e : Engine) (fileId : ℕ) : Option BloomFilter :=
  e.ssts[fileId]?.bind SstFile.bloom

def isDroppedPrefix (e : Engine) (key : Bytes) : Bool :=
  e.droppedTables.contains (keyTablePrefix key)

/-! ## Commits -/

def writeWithTx (e : Engine) (txId : ℕ) (mutations : List Mutation) :
    Except EngineError (ℕ × Engine) :=
  if mutations = [] then .error .emptyBatch
  else if txId = 0 then .error (.corrupt "tx_id 0 is reserved as sentinel")
  else .ok (e.commitSeq,
    { e with
      memtable := e.memtable.applyMutationsBatch txId mutations e.commitSeq
      commitSeq := e.commitSeq + 1 })

/-! ## Snapshots -/

def snapshotTs (e : Engine) : ℕ := e.commitSeq - 1

def pinSnapshot (e : Engine) (snapshotTs : ℕ) : Engine :=
  { e with
    pinnedSnapshots := e.pinnedSnapshots.alter snapshotTs fun count ↦ some (count.getD 0 + 1) }

def beginRead (e : Engine) : ℕ × Engine :=
  (e.snapshotTs, e.pinSnapshot e.snapshotTs)

def unpinSnapshot (e : Engine) (snapshotTs : ℕ) : Engine :=
  { e with
    pinnedSnapshots := e.pinnedSnapshots.alter snapshotTs fun count ↦ count.bind fun count ↦
      if count - 1 = 0 then none else some (count - 1) }

def watermark (e : Engine) : ℕ :=
  min ((e.pinnedSnapshots.keys.head?).getD openEndedTs) e.snapshotTs

/-! ## Flush -/

/-- The second phase of a flush: write the SST and its sidecars, append to the
manifest, clear the memtable. -/
def flushSstLocked (e : Engine) (rows : List VersionedRow) (env : SstEnv) : Engine :=
  if rows = [] then e
  else
    let fileId := e.versionSet.nextFileId
    { e with
      ssts := e.ssts.insert fileId (.write rows env)
      memtable := e.memtable.clear
      versionSet := e.versionSet.applied
        [.addFile fileId 0 (handleMeta rows env), .nextFileId (fileId + 1)] }

def flush (e : Engine) (env : SstEnv) : Engine :=
  let rows := e.memtable.drainInto
  if rows = [] then e
  else { e with memtable := e.memtable.clear }.flushSstLocked rows env

/-! ## Compaction -/

def compactionInputs (e : Engine) (sourceLevel targetLevel : ℕ) : List ℕ :=
  ((e.versionSet.files sourceLevel ++ e.versionSet.files targetLevel).insertionSort
    (· ≤ ·)).destutter (· ≠ ·)

/-- One iteration of `split_by_size`: the closed chunks, the open chunk and its
size. -/
def splitStep (versionSet : VersionSet) (maxBytes : ℕ)
    (acc : List (List ℕ) × List ℕ × ℕ) (input : ℕ) : List (List ℕ) × List ℕ × ℕ :=
  let bytes := (versionSet.fileMeta[input]?.map FileMeta.bytes).getD 0
  if maxBytes < acc.2.2 + bytes ∧ acc.2.1 ≠ [] then (acc.1 ++ [acc.2.1], [input], bytes)
  else (acc.1, acc.2.1 ++ [input], acc.2.2 + bytes)

def splitBySize (inputs : List ℕ) (versionSet : VersionSet) (maxBytes : ℕ) : List (List ℕ) :=
  let acc := inputs.foldl (splitStep versionSet maxBytes) ([], [], 0)
  if acc.2.1 = [] then acc.1 else acc.1 ++ [acc.2.1]

def compactChunk (e : Engine) (chunk : List ℕ) (watermark : ℕ) : List VersionedRow :=
  dedupSuperseded (chunk.flatMap fun input ↦ readAll (e.rowsOf input)) watermark

/-- An output file: its id, its rows and what the environment decided. -/
structure Output where
  fileId : ℕ
  rows : List VersionedRow
  env : SstEnv

def compactionEdits (versionSet : VersionSet) (inputs : List ℕ) (sourceLevel targetLevel : ℕ)
    (outputs : List Output) : List VersionEdit :=
  (outputs.map fun o ↦ .addFile o.fileId targetLevel (handleMeta o.rows o.env)) ++
    .nextFileId ((outputs.map Output.fileId).foldl max 0 + 1) ::
      inputs.map fun input ↦ .deleteFile input
        (if input ∈ versionSet.files sourceLevel then sourceLevel else targetLevel)

def commitCompaction (e : Engine) (inputs : List ℕ) (sourceLevel targetLevel : ℕ)
    (outputs : List Output) : Engine :=
  let written := outputs.foldl (fun ssts o ↦ ssts.insert o.fileId (.write o.rows o.env)) e.ssts
  { e with
    versionSet := e.versionSet.applied
      (compactionEdits e.versionSet inputs sourceLevel targetLevel outputs)
    ssts := inputs.foldl (fun ssts input ↦ ssts.erase input) written }

def chunkOutputs (e : Engine) (watermark : ℕ) (chunks : List (List ℕ)) (env : ℕ → SstEnv) :
    List Output :=
  chunks.mapIdx fun index chunk ↦
    ⟨e.versionSet.nextFileId + index, e.compactChunk chunk watermark, env index⟩

/-- Merge each chunk into a fresh file of the target level and retire the
inputs. -/
def compactChunks (e : Engine) (sourceLevel targetLevel watermark : ℕ) (inputs : List ℕ)
    (chunks : List (List ℕ)) (env : ℕ → SstEnv) : Engine :=
  e.commitCompaction inputs sourceLevel targetLevel (e.chunkOutputs watermark chunks env)

def compactWithWatermark (e : Engine) (sourceLevel targetLevel watermark : ℕ) (env : SstEnv) :
    Engine :=
  let inputs := e.compactionInputs sourceLevel targetLevel
  if inputs.length < 2 then e
  else e.compactChunks sourceLevel targetLevel watermark inputs [inputs] fun _ ↦ env

def compact (e : Engine) (sourceLevel targetLevel : ℕ) (env : SstEnv) : Engine :=
  e.compactWithWatermark sourceLevel targetLevel e.watermark env

def maxChunkBytes : ℕ := 64 * 1024 * 1024

def subCompact (e : Engine) (sourceLevel targetLevel watermark : ℕ) (env : ℕ → SstEnv) : Engine :=
  let inputs := e.compactionInputs sourceLevel targetLevel
  if inputs.length < 2 then e
  else e.compactChunks sourceLevel targetLevel watermark inputs
    (splitBySize inputs e.versionSet maxChunkBytes) env

/-! ## Point reads -/

/-- What the search learns from one file: nothing, or that the file holds the
key, with the version it offers at the snapshot and whether the key index
answered. -/
inductive Probe
  | absent
  | found (visible : Option VersionedValue) (indexed : Bool)

structure Search where
  newest : Option VersionedValue
  foundInLeveled : Bool
  hotKeyCache : Std.ExtTreeMap Bytes ℕ

def hotKeyCacheMax : ℕ := 16384

def hotKeyCacheInsert (cache : Std.ExtTreeMap Bytes ℕ) (key : Bytes) (fileId : ℕ) :
    Std.ExtTreeMap Bytes ℕ :=
  (if hotKeyCacheMax ≤ cache.size then ∅ else cache).insert key fileId

def isNewer (version : VersionedValue) (newest : Option VersionedValue) : Bool :=
  newest.all fun current ↦ decide (current.beginTs < version.beginTs)

def searchStep (key : Bytes) (level : ℕ → ℕ) (probe : ℕ → Probe) (st : Search) (fileId : ℕ) :
    Search :=
  if st.foundInLeveled ∧ 0 < level fileId then st
  else match probe fileId with
    | .absent => st
    | .found visible indexed =>
      let better := visible.filter fun version ↦ isNewer version st.newest
      { newest := better.or st.newest
        foundInLeveled := st.foundInLeveled || decide (0 < level fileId)
        hotKeyCache :=
          if indexed && better.isSome then hotKeyCacheInsert st.hotKeyCache key fileId
          else st.hotKeyCache }

def rangeMayContain (e : Engine) (key : Bytes) (fileId : ℕ) : Bool :=
  e.versionSet.fileMeta[fileId]?.all fun info ↦
    decide (info.minKey = [] ∨ info.maxKey = [] ∨ info.minKey ≤ key ∧ key ≤ info.maxKey)

def probeFile (e : Engine) (key : Bytes) (snapshot fileId : ℕ) : Probe :=
  if !e.rangeMayContain key fileId then .absent
  else if (e.bloomFor fileId).any fun filter ↦ !filter.contains key then .absent
  else match e.keyIndexFor fileId with
    | some index =>
      match index.get key with
      | some version => .found (some version |>.filter (·.visibleAt snapshot)) true
      | none => .absent
    | none =>
      match sstGet (e.rowsOf fileId) key snapshot with
      | some version => .found (some version) false
      | none => .absent

def levelOf (e : Engine) (fileId : ℕ) : ℕ := (e.versionSet.fileLevelFor fileId).getD 0

def searchFiles (e : Engine) (key : Bytes) (snapshot : ℕ) : Search :=
  (e.versionSet.candidateFiles key).foldl
    (searchStep key e.levelOf (e.probeFile key snapshot)) ⟨none, false, e.hotKeyCache⟩

def hotKeyHit (e : Engine) (key : Bytes) (snapshot : ℕ) : Option VersionedValue :=
  (((e.hotKeyCache[key]?).bind e.keyIndexFor).bind fun index ↦ index.get key).filter
    (·.visibleAt snapshot)

def get (e : Engine) (key : Bytes) (snapshot : ℕ) : Option Bytes × Engine :=
  if e.isDroppedPrefix key then (none, e)
  else match e.memtable.get key snapshot with
    | some version => (version.value, e)
    | none =>
      match e.hotKeyHit key snapshot with
      | some version => (version.value, e)
      | none =>
        let st := e.searchFiles key snapshot
        (st.newest.bind VersionedValue.value, { e with hotKeyCache := st.hotKeyCache })

end Engine

end HatP
