import HatP.CompactedReads
import HatP.FailedFlush
import HatP.Lib.Interference
import HatP.Sidecars

/-!
# Reads during the commit of a compaction

A read loads the version set once and then visits its files one by one.  The
commit of a compaction publishes a new version set and then, without waiting for
anyone, removes the files of the old one, their sidecars and their cache entries.
A pinned snapshot keeps versions alive and not files, so a read can find that a
file it has still to visit is gone.
-/

namespace HatP

open DerivedFiles Interference

def Engine.ofVersionSet (versionSet : VersionSet) : Engine :=
  { Engine.initial with versionSet := versionSet }

/-! ## The commit -/

inductive CommitStep
  | publish (edits : List VersionEdit)
  | unlinkSst (fileId : ℕ)
  | unlinkBloom (fileId : ℕ)
  | unlinkKeyIndex (fileId : ℕ)
  | bloomRemove (fileId : ℕ)
  | keyIndexRemove (fileId : ℕ)

def CommitStep.fileId : CommitStep → Option ℕ
  | .publish _ => none
  | .unlinkSst fileId | .unlinkBloom fileId | .unlinkKeyIndex fileId | .bloomRemove fileId
  | .keyIndexRemove fileId => some fileId

def commitSteps (edits : List VersionEdit) (inputs : List ℕ) : List CommitStep :=
  .publish edits :: inputs.flatMap fun input ↦
    [.unlinkSst input, .unlinkBloom input, .unlinkKeyIndex input, .bloomRemove input,
      .keyIndexRemove input]

/-- What a read and a commit share. -/
structure ReadState extends SidecarStore where
  memtable : MemTable
  droppedTables : Std.ExtTreeSet Bytes
  hotKeyCache : Std.ExtTreeMap Bytes ℕ
  /-- What the commit has still to do. -/
  commit : List CommitStep
  /-- The read has loaded its version set.  Neither party looks at this. -/
  loaded : Bool
  /-- The files that the read has still to visit.  Neither party looks at this. -/
  pending : List ℕ

/-- How the commit goes on: with its next step, without the sidecar that cannot
be removed, or not at all. -/
inductive CommitTurn
  | proceed
  | keep
  | abandon

namespace ReadState

def perform (s : ReadState) : CommitStep → ReadState
  | .publish edits => { s with versionSet := s.versionSet.applied edits }
  | .unlinkSst fileId => { s with ssts := s.ssts.erase fileId }
  | .unlinkBloom fileId => { s with blooms.files := s.blooms.files.erase fileId }
  | .unlinkKeyIndex fileId => { s with keyIndexes.files := s.keyIndexes.files.erase fileId }
  | .bloomRemove fileId => { s with blooms.cache := s.blooms.cache.erase fileId }
  | .keyIndexRemove fileId => { s with keyIndexes.cache := s.keyIndexes.cache.erase fileId }

def commitTurn (s : ReadState) : CommitTurn → Option ReadState
  | .proceed =>
    match s.commit with
    | [] => none
    | next :: rest => some { s.perform next with commit := rest }
  | .keep =>
    match s.commit with
    | .unlinkBloom _ :: rest | .unlinkKeyIndex _ :: rest => some { s with commit := rest }
    | _ => none
  | .abandon =>
    match s.commit with
    | .publish _ :: _ | .unlinkSst _ :: _ => some { s with commit := [] }
    | _ => none

/-! ## The reads -/

section Reads

open Program

/-- A lookup of a sidecar: the cache, then the file, then into the cache. -/
def loadSidecar {α : Type} (store : ReadState → Store ℕ α) (fill : ℕ → α → ReadState → ReadState)
    (fileId : ℕ) : Program ReadState (Option α) := do
  match ← read fun s ↦ (store s).cache[fileId]? with
  | some cached => return some cached
  | none =>
    match ← read fun s ↦ (store s).files[fileId]? with
    | none => return none
    | some a =>
      access (fill fileId a) fun _ ↦ ()
      return some a

def bloomFor : ℕ → Program ReadState (Option BloomFilter) :=
  loadSidecar (fun s ↦ s.blooms) fun fileId filter s ↦
    { s with
      blooms.cache := Store.fill (some SidecarStore.bloomCacheMax) s.blooms.cache fileId filter }

def keyIndexFor : ℕ → Program ReadState (Option KeyIndex) :=
  loadSidecar (fun s ↦ s.keyIndexes) fun fileId index s ↦
    { s with keyIndexes.cache := Store.fill none s.keyIndexes.cache fileId index }

def openSst (fileId : ℕ) : Program ReadState (Option (List VersionedRow)) :=
  read fun s ↦ s.ssts[fileId]?

def notFound : EngineError := .io "No such file or directory"

def loadVersionSet (files : VersionSet → List ℕ) : Program ReadState VersionSet :=
  access (fun s ↦ { s with loaded := true, pending := files s.versionSet }) fun s ↦ s.versionSet

def probe (versionSet : VersionSet) (key : Bytes) (snapshot fileId : ℕ) :
    Program ReadState (Except EngineError Engine.Probe) := do
  if !(Engine.ofVersionSet versionSet).rangeMayContain key fileId then return .ok .absent
  else
    let filter ← bloomFor fileId
    if filter.any fun filter ↦ !filter.contains key then return .ok .absent
    else
      match ← keyIndexFor fileId with
      | some index =>
        match index.get key with
        | some version => return .ok (.found (some version |>.filter (·.visibleAt snapshot)) true)
        | none => return .ok .absent
      | none =>
        match ← openSst fileId with
        | none => return .error notFound
        | some rows =>
          match sstGet rows key snapshot with
          | some version => return .ok (.found (some version) false)
          | none => return .ok .absent

def visited (route : ReadState → Std.ExtTreeMap Bytes ℕ) (rest : List ℕ) : Program ReadState Unit :=
  access (fun s ↦ { s with hotKeyCache := route s, pending := rest }) fun _ ↦ ()

def search (versionSet : VersionSet) (key : Bytes) (snapshot : ℕ) :
    List ℕ → Option VersionedValue → Bool → Program ReadState (Except EngineError (Option Bytes))
  | [], newest, _ => return .ok (newest.bind VersionedValue.value)
  | fileId :: rest, newest, foundInLeveled => do
    let level := (Engine.ofVersionSet versionSet).levelOf fileId
    if foundInLeveled ∧ 0 < level then
      visited (fun s ↦ s.hotKeyCache) rest
      search versionSet key snapshot rest newest foundInLeveled
    else
      match ← probe versionSet key snapshot fileId with
      | .error err => return .error err
      | .ok .absent =>
        visited (fun s ↦ s.hotKeyCache) rest
        search versionSet key snapshot rest newest foundInLeveled
      | .ok (.found visible indexed) =>
        let better := visible.filter fun version ↦ Engine.isNewer version newest
        visited (fun s ↦
          if indexed && better.isSome then Engine.hotKeyCacheInsert s.hotKeyCache key fileId
          else s.hotKeyCache) rest
        search versionSet key snapshot rest (better.or newest)
          (foundInLeveled || decide (0 < level))

def hotKeyHit (key : Bytes) (snapshot : ℕ) : Program ReadState (Option VersionedValue) := do
  match ← read fun s ↦ s.hotKeyCache[key]? with
  | none => return none
  | some cachedFileId =>
    let index ← keyIndexFor cachedFileId
    return (index.bind fun index ↦ index.get key).filter (·.visibleAt snapshot)

def get (key : Bytes) (snapshot : ℕ) : Program ReadState (Except EngineError (Option Bytes)) := do
  if ← read fun s ↦ s.droppedTables.contains (keyTablePrefix key) then return .ok none
  else
    match ← read fun s ↦ s.memtable.get key snapshot with
    | some version => return .ok version.value
    | none =>
      match ← hotKeyHit key snapshot with
      | some version => return .ok version.value
      | none =>
        let versionSet ← loadVersionSet fun versionSet ↦ versionSet.candidateFiles key
        search versionSet key snapshot (versionSet.candidateFiles key) none false

def collect (fetch : ℕ → Program ReadState (Except EngineError (List VersionedRow))) :
    List ℕ → Std.ExtTreeMap Bytes VersionedValue →
      Program ReadState (Except EngineError (Std.ExtTreeMap Bytes VersionedValue))
  | [], visible => return .ok visible
  | fileId :: rest, visible => do
    match ← fetch fileId with
    | .error err => return .error err
    | .ok rows =>
      let droppedTables ← read fun s ↦ s.droppedTables
      visited (fun s ↦ s.hotKeyCache) rest
      collect fetch rest
        (({ Engine.initial with droppedTables := droppedTables } : Engine).insertRows visible
          rows)

/-- The metadata comes from the version set of the moment. -/
def fetchRange (lower upper : Bytes) (snapshot fileId : ℕ) :
    Program ReadState (Except EngineError (List VersionedRow)) := do
  let versionSet ← read fun s ↦ s.versionSet
  if (Engine.ofVersionSet versionSet).outsideRange lower upper fileId then return .ok []
  else
    match ← openSst fileId with
    | none => return .error notFound
    | some rows => return .ok (scanRows rows lower upper snapshot)

def fetchAll (snapshot fileId : ℕ) :
    Program ReadState (Except EngineError (List VersionedRow)) := do
  match ← openSst fileId with
  | none => return .error notFound
  | some rows => return .ok ((readAll rows).filter (·.version.visibleAt snapshot))

def scanRange (lower upper : Bytes) (snapshot : ℕ) :
    Program ReadState (Except EngineError (List (Bytes × Bytes))) := do
  let inMemory ← read fun s ↦
    (s.memtable.scanRangeVersions lower upper snapshot).foldl insertNewest ∅
  let versionSet ← loadVersionSet fun versionSet ↦ (Engine.ofVersionSet versionSet).levelFiles
  match ← collect (fetchRange lower upper snapshot) (Engine.ofVersionSet versionSet).levelFiles
      inMemory with
  | .error err => return .error err
  | .ok visible =>
    return .ok (visible.toList.filterMap fun entry ↦ entry.2.value.map (Prod.mk entry.1))

def scanAll (snapshot : ℕ) :
    Program ReadState (Except EngineError (List (Bytes × Option Bytes))) := do
  let inMemory ← read fun s ↦
    (s.memtable.drainInto.filter (·.version.visibleAt snapshot)).foldl insertNewest ∅
  let versionSet ← loadVersionSet fun versionSet ↦ (Engine.ofVersionSet versionSet).levelFiles
  match ← collect (fetchAll snapshot) (Engine.ofVersionSet versionSet).levelFiles inMemory with
  | .error err => return .error err
  | .ok visible => return .ok (visible.toList.map fun entry ↦ (entry.1, entry.2.value))

end Reads

end ReadState

end HatP
