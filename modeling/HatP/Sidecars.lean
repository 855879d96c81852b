import HatP.Engine
import HatP.Lib.DerivedFiles
import HatP.Lib.Run

/-!
# The sidecars of the SSTs

A flush and a compaction write an SST, then its bloom filter and its key index,
and then the manifest.  Each of these writes may fail.  An id whose manifest
append failed is given out again, and what the failed attempt left under it, on
disk and in the caches, stays until it is overwritten.
-/

namespace HatP

open DerivedFiles Transition

/-- The directory of the engine and its caches. -/
structure SidecarStore where
  versionSet : VersionSet
  ssts : Std.ExtTreeMap ℕ (List VersionedRow)
  blooms : Store ℕ BloomFilter
  keyIndexes : Store ℕ KeyIndex

/-- What the environment decides when one SST is written. -/
structure AttemptEnv where
  bytes : ℕ
  createdAt : ℕ
  bloomSize : BloomSize
  sst : WriteResult
  bloom : WriteResult
  keyIndex : WriteResult

def AttemptEnv.sstEnv (env : AttemptEnv) : SstEnv where
  bytes := env.bytes
  createdAt := env.createdAt
  bloom := if env.bloom = .written then some env.bloomSize else none
  keyIndexWritten := decide (env.keyIndex = .written)

/-- How a manifest append ends.  The rewrite comes after the batch is published. -/
inductive ManifestResult
  | appended
  | failed
  | rewriteFailed

/-- Which files of an input can be removed. -/
structure Unlink where
  sst : Bool
  bloom : Bool
  keyIndex : Bool

inductive SidecarOp
  | flush (rows : List VersionedRow) (env : AttemptEnv) (manifest : ManifestResult)
  | compact (sourceLevel targetLevel watermark : ℕ) (env : AttemptEnv) (manifest : ManifestResult)
      (unlinks : ℕ → Unlink)
  | subCompact (sourceLevel targetLevel watermark : ℕ) (env : ℕ → AttemptEnv)
      (manifest : ManifestResult) (unlinks : ℕ → Unlink)
  | bloomFor (fileId : ℕ)
  | keyIndexFor (fileId : ℕ)
  /-- The engine is opened again, with whatever the manifest file then gives. -/
  | restart (versionSet : VersionSet)

namespace SidecarStore

variable {watermark : ℕ}

def bloomCacheMax : ℕ := 512

def keyIndexCacheMax : ℕ := 256

def initial : SidecarStore := ⟨.initial, ∅, .empty, .empty⟩

def bloomFor (s : SidecarStore) (fileId : ℕ) : Option BloomFilter × SidecarStore :=
  (s.blooms.lookup fileId, { s with blooms := s.blooms.load (some bloomCacheMax) fileId })

/-- Unlike a writer, a reader puts its index into a full cache too. -/
def keyIndexFor (s : SidecarStore) (fileId : ℕ) : Option KeyIndex × SidecarStore :=
  (s.keyIndexes.lookup fileId, { s with keyIndexes := s.keyIndexes.load none fileId })

/-- The SST, the bloom filter and the key index.  Only the first can fail the
attempt. -/
def writeFile (s : SidecarStore) (fileId : ℕ) (rows : List VersionedRow) (env : AttemptEnv) :
    Bool × SidecarStore :=
  match env.sst with
  | .failed kept => (false, { s with ssts := if kept then s.ssts else s.ssts.erase fileId })
  | .written =>
    (true,
      { s with
        ssts := s.ssts.insert fileId rows
        blooms := s.blooms.write (some bloomCacheMax) fileId
          (writeBloomFor rows env.bloomSize) env.bloom
        keyIndexes := s.keyIndexes.write (some keyIndexCacheMax) fileId
          (KeyIndex.fromRows rows) env.keyIndex })

def appendBatch (s : SidecarStore) (edits : List VersionEdit) :
    ManifestResult → Bool × SidecarStore
  | .appended => (true, { s with versionSet := s.versionSet.applied edits })
  | .failed => (false, s)
  | .rewriteFailed => (false, { s with versionSet := s.versionSet.applied edits })

def flush (s : SidecarStore) (rows : List VersionedRow) (env : AttemptEnv)
    (manifest : ManifestResult) : SidecarStore :=
  if rows = [] then s
  else
    let fileId := s.versionSet.nextFileId
    match s.writeFile fileId rows env with
    | (false, s) => s
    | (true, s) =>
      (s.appendBatch [.addFile fileId 0 (handleMeta rows env.sstEnv), .nextFileId (fileId + 1)]
        manifest).2

def compactChunk (s : SidecarStore) (chunk : List ℕ) (watermark fileId : ℕ) (env : AttemptEnv) :
    Option Engine.Output × SidecarStore :=
  match chunk.mapM fun input ↦ s.ssts[input]? with
  | none => (none, s)
  | some files =>
    let rows := dedupSuperseded (files.flatMap readAll) watermark
    match s.writeFile fileId rows env with
    | (false, s) => (none, s)
    | (true, s) => (some ⟨fileId, rows, env.sstEnv⟩, s)

/-- The chunks from number `index` on.  All of them are tried. -/
def compactChunks (watermark base : ℕ) (env : ℕ → AttemptEnv) :
    List (List ℕ) → ℕ → SidecarStore → List (Option Engine.Output) × SidecarStore
  | [], _, s => ([], s)
  | chunk :: chunks, index, s =>
    let (output, s) := s.compactChunk chunk watermark (base + index) (env index)
    let (outputs, s) := compactChunks watermark base env chunks (index + 1) s
    (output :: outputs, s)

/-- An SST that cannot be removed ends the loop; a sidecar does not. -/
def unlinkInputs (unlinks : ℕ → Unlink) : List ℕ → SidecarStore → SidecarStore
  | [], s => s
  | input :: inputs, s =>
    if (unlinks input).sst then
      unlinkInputs unlinks inputs
        { s with
          ssts := s.ssts.erase input
          blooms := s.blooms.retire input (unlinks input).bloom
          keyIndexes := s.keyIndexes.retire input (unlinks input).keyIndex }
    else s

def commitCompaction (s : SidecarStore) (inputs : List ℕ) (sourceLevel targetLevel : ℕ)
    (outputs : List Engine.Output) (manifest : ManifestResult) (unlinks : ℕ → Unlink) :
    SidecarStore :=
  match s.appendBatch (Engine.compactionEdits s.versionSet inputs sourceLevel targetLevel outputs)
    manifest with
  | (false, s) => s
  | (true, s) => unlinkInputs unlinks inputs s

def compactionInputs (s : SidecarStore) (sourceLevel targetLevel : ℕ) : List ℕ :=
  ({ Engine.initial with versionSet := s.versionSet } : Engine).compactionInputs sourceLevel
    targetLevel

def compactInto (s : SidecarStore) (sourceLevel targetLevel watermark : ℕ)
    (chunks : List (List ℕ)) (env : ℕ → AttemptEnv) (manifest : ManifestResult)
    (unlinks : ℕ → Unlink) : SidecarStore :=
  let inputs := s.compactionInputs sourceLevel targetLevel
  if inputs.length < 2 then s
  else
    let (outputs, s) := compactChunks watermark s.versionSet.nextFileId env chunks 0 s
    match outputs.mapM id with
    | none => s
    | some outputs => s.commitCompaction inputs sourceLevel targetLevel outputs manifest unlinks

def chunks (s : SidecarStore) (sourceLevel targetLevel : ℕ) : List (List ℕ) :=
  Engine.splitBySize (s.compactionInputs sourceLevel targetLevel) s.versionSet
    Engine.maxChunkBytes

def exec (s : SidecarStore) : SidecarOp → SidecarStore
  | .flush rows env manifest => s.flush rows env manifest
  | .compact src tgt watermark env manifest unlinks =>
    s.compactInto src tgt watermark [s.compactionInputs src tgt] (fun _ ↦ env) manifest unlinks
  | .subCompact src tgt watermark env manifest unlinks =>
    s.compactInto src tgt watermark (s.chunks src tgt) env manifest unlinks
  | .bloomFor fileId => (s.bloomFor fileId).2
  | .keyIndexFor fileId => (s.keyIndexFor fileId).2
  | .restart versionSet =>
    { s with
      versionSet := versionSet
      blooms := s.blooms.reopened
      keyIndexes := s.keyIndexes.reopened }

def step (s : SidecarStore) (op : SidecarOp) : Option SidecarStore := some (s.exec op)

def IsLive (s : SidecarStore) (fileId : ℕ) : Prop := ∃ level, fileId ∈ s.versionSet.files level

/-- What the reads get for a live file was built from the rows that its SST has,
so the filter rejects none of its keys and the index returns none but its
versions. -/
structure Coherent (s : SidecarStore) : Prop where
  bloom : ∀ fileId rows filter, s.IsLive fileId → s.ssts[fileId]? = some rows →
    (s.bloomFor fileId).1 = some filter →
      (∃ size, filter = writeBloomFor rows size) ∧ ∀ row ∈ rows, filter.contains row.key = true
  keyIndex : ∀ fileId rows index, s.IsLive fileId → s.ssts[fileId]? = some rows →
    (s.keyIndexFor fileId).1 = some index →
      index = KeyIndex.fromRows rows ∧ (KeyIndex.Indexable rows → ∀ key version,
        index.get key = some version → ∃ v ∈ versionsOf rows key, version = v.stored)

/-- If the SST goes under an id that an earlier attempt has left a sidecar for,
in the directory or in a cache, then that sidecar is written again. -/
def Replaces (s : SidecarStore) (fileId : ℕ) (env : AttemptEnv) : Prop :=
  env.sst = .written →
    s.blooms.Replaces fileId env.bloom ∧ s.keyIndexes.Replaces fileId env.keyIndex

instance (s : SidecarStore) (fileId : ℕ) (env : AttemptEnv) : Decidable (s.Replaces fileId env) :=
  inferInstanceAs (Decidable (_ → _ ∧ _))

def LeavesNothingStale (s : SidecarStore) : SidecarOp → Prop
  | .flush rows env _ => rows ≠ [] → s.Replaces s.versionSet.nextFileId env
  | .compact src tgt _ env _ _ =>
    2 ≤ (s.compactionInputs src tgt).length → s.Replaces s.versionSet.nextFileId env
  | .subCompact src tgt _ env _ _ =>
    2 ≤ (s.compactionInputs src tgt).length → ∀ index < (s.chunks src tgt).length,
      s.Replaces (s.versionSet.nextFileId + index) (env index)
  | .bloomFor _ | .keyIndexFor _ | .restart _ => True

instance (s : SidecarStore) : DecidablePred s.LeavesNothingStale
  | .flush _ _ _ => inferInstanceAs (Decidable (_ → _))
  | .compact _ _ _ _ _ _ => inferInstanceAs (Decidable (_ → _))
  | .subCompact _ _ _ _ _ _ => inferInstanceAs (Decidable (_ → ∀ index < _, _))
  | .bloomFor _ | .keyIndexFor _ | .restart _ => isTrue trivial

/-! ## Sidecars of all files, live or not -/

/-- Sidecars and caches belong to the SSTs in the directory. -/
structure Tracked (s : SidecarStore) : Prop where
  blooms : s.blooms.Tracks (s.ssts[·]?) fun rows filter ↦ ∃ size, filter = writeBloomFor rows size
  keyIndexes : s.keyIndexes.Tracks (s.ssts[·]?) fun rows index ↦ index = KeyIndex.fromRows rows

variable {s : SidecarStore} {fileId : ℕ} {rows : List VersionedRow} {env : AttemptEnv}
  {manifest : ManifestResult}

theorem tracked_initial : Tracked initial := ⟨Store.tracks_empty, Store.tracks_empty⟩

theorem Tracked.coherent (h : s.Tracked) : s.Coherent where
  bloom fileId rows filter _ hrows hfilter := by
    obtain ⟨size, rfl⟩ := h.blooms fileId filter (Store.mentions_of_lookup hfilter) rows hrows
    exact ⟨⟨size, rfl⟩, fun row hrow ↦ contains_writeBloomFor hrow size⟩
  keyIndex fileId rows index _ hrows hindex := by
    obtain rfl := h.keyIndexes fileId index (Store.mentions_of_lookup hindex) rows hrows
    exact ⟨rfl, fun hindexable key version hget ↦ KeyIndex.get_fromRows_some hindexable hget⟩

theorem Tracked.mono {s' : SidecarStore} (h : s.Tracked)
    (hblooms : ∀ i x, s'.blooms.Mentions i x → s.blooms.Mentions i x)
    (hindexes : ∀ i x, s'.keyIndexes.Mentions i x → s.keyIndexes.Mentions i x)
    (hssts : ∀ (i : ℕ) rows, s'.ssts[i]? = some rows → s.ssts[i]? = some rows) : s'.Tracked :=
  ⟨h.blooms.mono hblooms hssts, h.keyIndexes.mono hindexes hssts⟩

theorem Tracked.writeFile (h : s.Tracked) (hreplaces : s.Replaces fileId env) :
    (s.writeFile fileId rows env).2.Tracked := by
  rw [SidecarStore.writeFile]
  split
  next kept hsst =>
    refine h.mono (fun _ _ hmem ↦ hmem) (fun _ _ hmem ↦ hmem) fun i rows hi ↦ ?_
    cases kept with
    | true => exact hi
    | false => exact (Store.getElem?_erase_of_some hi).2
  next hsst =>
    obtain ⟨hbloom, hindex⟩ := hreplaces hsst
    have hother : ∀ other, fileId ≠ other →
        (s.ssts.insert fileId rows)[other]? = s.ssts[other]? := fun other hne ↦ by
      rw [Std.ExtTreeMap.getElem?_insert, if_neg (by simpa using hne)]
    have hself : ∀ b, (s.ssts.insert fileId rows)[fileId]? = some b → b = rows := fun b hb ↦ by
      rw [Std.ExtTreeMap.getElem?_insert_self] at hb
      exact (Option.some.inj hb).symm
    refine ⟨h.blooms.write hbloom hother fun b hb ↦ ?_,
      h.keyIndexes.write hindex hother fun b hb ↦ ?_⟩
    · rw [hself b hb]
      exact ⟨env.bloomSize, rfl⟩
    · rw [hself b hb]

theorem Replaces.writeFile {other : ℕ} {env' : AttemptEnv} (h : s.Replaces other env')
    (hne : fileId ≠ other) : (s.writeFile fileId rows env).2.Replaces other env' := by
  intro hsst
  obtain ⟨hbloom, hindex⟩ := h hsst
  rw [SidecarStore.writeFile]
  split
  next => exact ⟨hbloom, hindex⟩
  next => exact ⟨hbloom.write hne, hindex.write hne⟩

theorem Tracked.appendBatch (h : s.Tracked) (edits : List VersionEdit)
    (manifest : ManifestResult) : (s.appendBatch edits manifest).2.Tracked := by
  cases manifest with
  | appended | failed | rewriteFailed => exact ⟨h.blooms, h.keyIndexes⟩

theorem Tracked.flush (h : s.Tracked)
    (hreplaces : rows ≠ [] → s.Replaces s.versionSet.nextFileId env) :
    (s.flush rows env manifest).Tracked := by
  rw [SidecarStore.flush]
  split
  next => exact h
  next hne =>
    have hwritten : (s.writeFile s.versionSet.nextFileId rows env).2.Tracked :=
      h.writeFile (hreplaces hne)
    dsimp only
    split
    next hwrite =>
      rw [hwrite] at hwritten
      exact hwritten
    next hwrite =>
      rw [hwrite] at hwritten
      exact hwritten.appendBatch _ _

/-! ## Compactions -/

theorem compactChunk_cases (s : SidecarStore) (chunk : List ℕ) (watermark fileId : ℕ)
    (env : AttemptEnv) : (s.compactChunk chunk watermark fileId env).2 = s ∨
      ∃ rows, (s.compactChunk chunk watermark fileId env).2 = (s.writeFile fileId rows env).2 := by
  rw [compactChunk]
  split
  next => exact .inl rfl
  next files hfiles =>
    refine .inr ⟨dedupSuperseded (files.flatMap readAll) watermark, ?_⟩
    dsimp only
    split
    next hwrite => rw [hwrite]
    next hwrite => rw [hwrite]

theorem Tracked.compactChunk (h : s.Tracked) {chunk : List ℕ} (hreplaces : s.Replaces fileId env) :
    (s.compactChunk chunk watermark fileId env).2.Tracked := by
  rcases s.compactChunk_cases chunk watermark fileId env with heq | ⟨rows, heq⟩
  · rw [heq]
    exact h
  · rw [heq]
    exact h.writeFile hreplaces

theorem Replaces.compactChunk {other : ℕ} {env' : AttemptEnv} {chunk : List ℕ}
    (h : s.Replaces other env') (hne : fileId ≠ other) :
    (s.compactChunk chunk watermark fileId env).2.Replaces other env' := by
  rcases s.compactChunk_cases chunk watermark fileId env with heq | ⟨rows, heq⟩
  · rw [heq]
    exact h
  · rw [heq]
    exact h.writeFile hne

theorem Tracked.compactChunks (h : s.Tracked) {base : ℕ} {env : ℕ → AttemptEnv}
    {chunks : List (List ℕ)} {index : ℕ}
    (hreplaces : ∀ i, i < chunks.length → s.Replaces (base + (index + i)) (env (index + i))) :
    (compactChunks watermark base env chunks index s).2.Tracked := by
  induction chunks generalizing s index with
  | nil => exact h
  | cons chunk chunks ih =>
    rw [SidecarStore.compactChunks]
    apply ih (h.compactChunk (hreplaces 0 (Nat.succ_pos _)))
    intro i hi
    have hlater := hreplaces (i + 1) (Nat.succ_lt_succ hi)
    rw [← Nat.add_assoc index i 1, Nat.add_right_comm] at hlater
    exact hlater.compactChunk (by omega)

theorem Tracked.unlinkInputs (h : s.Tracked) (unlinks : ℕ → Unlink) (inputs : List ℕ) :
    (unlinkInputs unlinks inputs s).Tracked := by
  induction inputs generalizing s with
  | nil => exact h
  | cons input inputs ih =>
    rw [SidecarStore.unlinkInputs]
    split
    next =>
      apply ih
      exact h.mono (fun _ _ hmem ↦ Store.mentions_retire hmem)
        (fun _ _ hmem ↦ Store.mentions_retire hmem)
        fun _ _ hrows ↦ (Store.getElem?_erase_of_some hrows).2
    next => exact h

theorem Tracked.commitCompaction (h : s.Tracked) (inputs : List ℕ) (src tgt : ℕ)
    (outputs : List Engine.Output) (unlinks : ℕ → Unlink) :
    (s.commitCompaction inputs src tgt outputs manifest unlinks).Tracked := by
  have happended := h.appendBatch (Engine.compactionEdits s.versionSet inputs src tgt outputs)
    manifest
  rw [SidecarStore.commitCompaction]
  split
  next heq =>
    rw [heq] at happended
    exact happended
  next heq =>
    rw [heq] at happended
    exact happended.unlinkInputs unlinks inputs

theorem Tracked.compactInto (h : s.Tracked) {src tgt : ℕ} {chunks : List (List ℕ)}
    {env : ℕ → AttemptEnv} {unlinks : ℕ → Unlink}
    (hreplaces : 2 ≤ (s.compactionInputs src tgt).length → ∀ i < chunks.length,
      s.Replaces (s.versionSet.nextFileId + i) (env i)) :
    (s.compactInto src tgt watermark chunks env manifest unlinks).Tracked := by
  rw [SidecarStore.compactInto]
  split
  next => exact h
  next hinputs =>
    have hwritten : (SidecarStore.compactChunks watermark s.versionSet.nextFileId env chunks 0
        s).2.Tracked := by
      apply h.compactChunks
      intro i hi
      rw [Nat.zero_add]
      exact hreplaces (not_lt.mp hinputs) i hi
    dsimp only
    split
    next => exact hwritten
    next => exact hwritten.commitCompaction _ _ _ _ _

/-! ## Runs -/

theorem Tracked.exec (h : s.Tracked) {op : SidecarOp} (hop : s.LeavesNothingStale op) :
    (s.exec op).Tracked := by
  cases op with
  | flush rows env manifest => exact h.flush hop
  | compact src tgt watermark env manifest unlinks =>
    rw [SidecarStore.exec]
    apply h.compactInto
    intro hinputs i hi
    obtain rfl : i = 0 := Nat.lt_one_iff.mp hi
    exact hop hinputs
  | subCompact src tgt watermark env manifest unlinks => exact h.compactInto hop
  | bloomFor fileId =>
    exact h.mono (fun _ _ hmem ↦ Store.mentions_load hmem) (fun _ _ hmem ↦ hmem)
      fun _ _ hrows ↦ hrows
  | keyIndexFor fileId =>
    exact h.mono (fun _ _ hmem ↦ hmem) (fun _ _ hmem ↦ Store.mentions_load hmem)
      fun _ _ hrows ↦ hrows
  | restart versionSet =>
    exact h.mono (fun _ _ hmem ↦ Store.mentions_reopened hmem)
      (fun _ _ hmem ↦ Store.mentions_reopened hmem) fun _ _ hrows ↦ hrows

/-- As long as no attempt leaves the sidecar of an earlier one under its id, what
the reads get for a live file belongs to its SST. -/
theorem coherent_along (ops : List SidecarOp)
    (hmeet : StepsMeet step LeavesNothingStale initial ops) :
    Along step Coherent initial ops := by
  refine hmeet.along (I := Tracked) (fun s op t h hop hstep ↦ ?_) (fun _ h ↦ h.coherent)
    tracked_initial
  cases hstep
  exact h.exec hop

def sidecarEnv (sidecars : WriteResult) : AttemptEnv :=
  ⟨100, 0, .smallest, .written, sidecars, sidecars⟩

def firstRow : VersionedRow := ⟨[1], .live [10] 1 1⟩

def secondRow : VersionedRow := ⟨[2], .live [20] 2 2⟩

/-- The manifest append of the first flush fails, and the second flush gets the
same id. -/
def reusedId (sidecars : WriteResult) : List SidecarOp :=
  [.flush [firstRow] (sidecarEnv .written) .failed,
    .flush [secondRow] (sidecarEnv sidecars) .appended]

theorem coherent_along_reusedId :
    StepsMeet step LeavesNothingStale initial (reusedId .written) ∧
      Along step Coherent initial (reusedId .written) := by
  have hmeet : StepsMeet step LeavesNothingStale initial (reusedId .written) := by
    decide
  exact ⟨hmeet, coherent_along _ hmeet⟩

/-- The second flush cannot write its sidecars.  Those of the first attempt are
found under its id: the filter rejects a key that the SST holds, and the index
returns a version that it does not hold. -/
theorem stale_sidecars_served :
    ∃ s filter index, run step initial (reusedId (.failed true)) = some s ∧
      s.IsLive 0 ∧ s.ssts[0]? = some [secondRow] ∧
      (s.bloomFor 0).1 = some filter ∧ filter.contains secondRow.key = false ∧
      (s.keyIndexFor 0).1 = some index ∧
      index.get firstRow.key = some firstRow.version.stored ∧
      versionsOf [secondRow] firstRow.key = [] :=
  ⟨_, _, _, rfl, ⟨0, by decide⟩, by decide, rfl, by decide, rfl, by decide, by decide⟩

end SidecarStore

end HatP
