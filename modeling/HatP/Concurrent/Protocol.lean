import HatP.Invariant
import HatP.Wal.Codec

/-!
# Commits, flushes and readers as interleaved steps

One writer at a time holds the write guard; it appends its batch to the WAL,
and for each request takes a commit timestamp, installs the mutations one by
one and acknowledges.  A flush drains the memtable under the write guard and
then waits for the compaction guard; the flush that holds it writes the SST,
appends to the manifest, clears the memtable again and may truncate the WAL.
Readers pin a snapshot and read at it.
-/

namespace HatP

open Transition

/-! ## The state -/

/-- Where the holder of the write guard stands: before its WAL append, before
the timestamp of the next request of its batch, or installing a commit. -/
inductive Writer
  | appending (batch : List PendingWrite)
  | publishing (queue : List PendingWrite)
  | installing (commit : Commit) (todo : List Mutation) (queue : List PendingWrite)

/-- Where the flush that holds the compaction guard stands. -/
inductive FlushPhase
  | entered (rows : List VersionedRow)
  | written (rows : List VersionedRow) (fileId : ℕ) (env : SstEnv)
  | registered
  | cleared
  | truncating

/-- A reader with its snapshot and the versions it has read, newest first. -/
structure Reader where
  snapshot : ℕ
  log : List (Bytes × Option (ℕ × Option Bytes))

structure SharedEngine where
  engine : Engine
  wal : List WalRecord
  walMaxSizeBytes : ℕ
  writer : Option Writer
  /-- The rows of the flushes that wait for the compaction guard. -/
  drained : List (List VersionedRow)
  flusher : Option FlushPhase
  readers : List Reader
  /-- The commits that have a timestamp. -/
  published : List Commit
  /-- The commits whose callers got `Ok`. -/
  acked : List Commit

/-- A read that looks into the memtable and then exactly into the live files. -/
def Engine.exactRead (e : Engine) (key : Bytes) (snapshot : ℕ) : Option VersionedValue :=
  (e.memtable.get key snapshot).or
    ((e.liveFiles.filterMap fun i ↦ sstGet (e.rowsOf i) key snapshot).argmax
      VersionedValue.beginTs)

namespace SharedEngine

def initial (walMaxSizeBytes : ℕ) : SharedEngine :=
  ⟨.initial, [], walMaxSizeBytes, none, [], none, [], [], []⟩

inductive Action
  | lockWrite (batch : List PendingWrite)
  | appendWal
  | takeTimestamp
  | install
  | acknowledge
  | unlockWrite
  | drain
  | lockCompaction (index : ℕ)
  | writeSst (env : SstEnv)
  | appendManifest
  | clearMemtable
  | checkWalSize
  | resetWal
  | beginRead
  | read (index : ℕ) (key : Bytes)
  | dropReader (index : ℕ)

/-! ## The steps of a commit -/

def appendWal (st : SharedEngine) (batch : List PendingWrite) : SharedEngine :=
  { st with
    wal := st.wal ++ batch.flatMap fun w ↦ encodeMutations w.txId w.mutations
    writer := some (.publishing batch) }

def takeTimestamp (st : SharedEngine) (w : PendingWrite) (queue : List PendingWrite) :
    SharedEngine :=
  let commit : Commit := ⟨w.txId, st.engine.commitSeq, w.mutations⟩
  { st with
    engine := { st.engine with commitSeq := st.engine.commitSeq + 1 }
    writer := some (.installing commit w.mutations queue)
    published := commit :: st.published }

def install (st : SharedEngine) (commit : Commit) (m : Mutation) (todo : List Mutation)
    (queue : List PendingWrite) : SharedEngine :=
  { st with
    engine := { st.engine with
      memtable := st.engine.memtable.applyMutation commit.txId commit.commitTs m }
    writer := some (.installing commit todo queue) }

def acknowledge (st : SharedEngine) (commit : Commit) (queue : List PendingWrite) : SharedEngine :=
  { st with writer := some (.publishing queue), acked := commit :: st.acked }

def writerStep (st : SharedEngine) : Action → Writer → Option SharedEngine
  | .appendWal, .appending batch => some (st.appendWal batch)
  | .takeTimestamp, .publishing (w :: queue) => some (st.takeTimestamp w queue)
  | .install, .installing commit (m :: todo) queue => some (st.install commit m todo queue)
  | .acknowledge, .installing commit [] queue => some (st.acknowledge commit queue)
  | .unlockWrite, .publishing [] => some { st with writer := none }
  | _, _ => none

/-! ## The steps of a flush -/

def drain (st : SharedEngine) : SharedEngine :=
  let rows := st.engine.memtable.drainInto
  if rows = [] then st
  else { st with
    engine := { st.engine with memtable := st.engine.memtable.clear }
    drained := st.drained ++ [rows] }

def writeSst (st : SharedEngine) (rows : List VersionedRow) (env : SstEnv) : SharedEngine :=
  let fileId := st.engine.versionSet.nextFileId
  { st with
    engine := { st.engine with ssts := st.engine.ssts.insert fileId (.write rows env) }
    flusher := some (.written rows fileId env) }

def appendManifest (st : SharedEngine) (rows : List VersionedRow) (fileId : ℕ) (env : SstEnv) :
    SharedEngine :=
  { st with
    engine := { st.engine with
      versionSet := st.engine.versionSet.applied
        [.addFile fileId 0 (handleMeta rows env), .nextFileId (fileId + 1)] }
    flusher := some .registered }

def clearMemtable (st : SharedEngine) : SharedEngine :=
  { st with
    engine := { st.engine with memtable := st.engine.memtable.clear }
    flusher := some .cleared }

def checkWalSize (st : SharedEngine) : SharedEngine :=
  { st with
    flusher := if st.walMaxSizeBytes < walSize st.wal then some .truncating else none }

def resetWal (st : SharedEngine) : SharedEngine := { st with wal := [], flusher := none }

def flusherStep (st : SharedEngine) : Action → FlushPhase → Option SharedEngine
  | .writeSst env, .entered rows => some (st.writeSst rows env)
  | .appendManifest, .written rows fileId env => some (st.appendManifest rows fileId env)
  | .clearMemtable, .registered => some st.clearMemtable
  | .checkWalSize, .cleared => some st.checkWalSize
  | .resetWal, .truncating => some st.resetWal
  | _, _ => none

/-! ## The steps of a reader -/

def beginRead (st : SharedEngine) : SharedEngine :=
  { st with
    engine := st.engine.beginRead.2
    readers := st.readers ++ [⟨st.engine.beginRead.1, []⟩] }

def read (st : SharedEngine) (index : ℕ) (reader : Reader) (key : Bytes) : SharedEngine :=
  { st with
    readers := st.readers.set index { reader with
      log := (key, (st.engine.exactRead key reader.snapshot).map VersionedValue.stamp) ::
        reader.log } }

def dropReader (st : SharedEngine) (index : ℕ) (reader : Reader) : SharedEngine :=
  { st with
    engine := st.engine.unpinSnapshot reader.snapshot
    readers := st.readers.eraseIdx index }

def step (st : SharedEngine) : Action → Option SharedEngine
  | .lockWrite batch =>
    if st.writer.isNone ∧ batch ≠ [] then some { st with writer := some (.appending batch) }
    else none
  | .drain => if st.writer.isNone then some st.drain else none
  | .lockCompaction index =>
    if st.flusher.isNone then
      st.drained[index]?.map fun rows ↦
        { st with drained := st.drained.eraseIdx index, flusher := some (.entered rows) }
    else none
  | .beginRead => some st.beginRead
  | .read index key => st.readers[index]?.map fun reader ↦ st.read index reader key
  | .dropReader index => st.readers[index]?.map fun reader ↦ st.dropReader index reader
  | .appendWal => st.writer.bind (st.writerStep .appendWal)
  | .takeTimestamp => st.writer.bind (st.writerStep .takeTimestamp)
  | .install => st.writer.bind (st.writerStep .install)
  | .acknowledge => st.writer.bind (st.writerStep .acknowledge)
  | .unlockWrite => st.writer.bind (st.writerStep .unlockWrite)
  | .writeSst env => st.flusher.bind (st.flusherStep (.writeSst env))
  | .appendManifest => st.flusher.bind (st.flusherStep .appendManifest)
  | .clearMemtable => st.flusher.bind (st.flusherStep .clearMemtable)
  | .checkWalSize => st.flusher.bind (st.flusherStep .checkWalSize)
  | .resetWal => st.flusher.bind (st.flusherStep .resetWal)

/-- The enabled steps, one rule for each action. -/
inductive Steps (st : SharedEngine) : Action → SharedEngine → Prop
  | lockWrite {batch : List PendingWrite} (hwriter : st.writer = none) (hbatch : batch ≠ []) :
      Steps st (.lockWrite batch) { st with writer := some (.appending batch) }
  | appendWal {batch : List PendingWrite} (hwriter : st.writer = some (.appending batch)) :
      Steps st .appendWal (st.appendWal batch)
  | takeTimestamp {w : PendingWrite} {queue : List PendingWrite}
      (hwriter : st.writer = some (.publishing (w :: queue))) :
      Steps st .takeTimestamp (st.takeTimestamp w queue)
  | install {commit : Commit} {m : Mutation} {todo : List Mutation} {queue : List PendingWrite}
      (hwriter : st.writer = some (.installing commit (m :: todo) queue)) :
      Steps st .install (st.install commit m todo queue)
  | acknowledge {commit : Commit} {queue : List PendingWrite}
      (hwriter : st.writer = some (.installing commit [] queue)) :
      Steps st .acknowledge (st.acknowledge commit queue)
  | unlockWrite (hwriter : st.writer = some (.publishing [])) :
      Steps st .unlockWrite { st with writer := none }
  | drain (hwriter : st.writer = none) : Steps st .drain st.drain
  | lockCompaction {index : ℕ} {rows : List VersionedRow} (hflusher : st.flusher = none)
      (hrows : st.drained[index]? = some rows) :
      Steps st (.lockCompaction index)
        { st with drained := st.drained.eraseIdx index, flusher := some (.entered rows) }
  | writeSst {rows : List VersionedRow} {env : SstEnv}
      (hflusher : st.flusher = some (.entered rows)) :
      Steps st (.writeSst env) (st.writeSst rows env)
  | appendManifest {rows : List VersionedRow} {fileId : ℕ} {env : SstEnv}
      (hflusher : st.flusher = some (.written rows fileId env)) :
      Steps st .appendManifest (st.appendManifest rows fileId env)
  | clearMemtable (hflusher : st.flusher = some .registered) :
      Steps st .clearMemtable st.clearMemtable
  | checkWalSize (hflusher : st.flusher = some .cleared) : Steps st .checkWalSize st.checkWalSize
  | resetWal (hflusher : st.flusher = some .truncating) : Steps st .resetWal st.resetWal
  | beginRead : Steps st .beginRead st.beginRead
  | read {index : ℕ} {reader : Reader} {key : Bytes} (hreader : st.readers[index]? = some reader) :
      Steps st (.read index key) (st.read index reader key)
  | dropReader {index : ℕ} {reader : Reader} (hreader : st.readers[index]? = some reader) :
      Steps st (.dropReader index) (st.dropReader index reader)

variable {st st' : SharedEngine} {action : Action}

theorem steps_of_writerStep {writer : Writer}
    (hwriter : st.writer = some writer) (h : st.writerStep action writer = some st') :
    st.Steps action st' := by
  unfold writerStep at h
  split at h
  · exact Option.some.inj h ▸ .appendWal hwriter
  · exact Option.some.inj h ▸ .takeTimestamp hwriter
  · exact Option.some.inj h ▸ .install hwriter
  · exact Option.some.inj h ▸ .acknowledge hwriter
  · exact Option.some.inj h ▸ .unlockWrite hwriter
  · simp at h

theorem steps_of_flusherStep {phase : FlushPhase}
    (hflusher : st.flusher = some phase) (h : st.flusherStep action phase = some st') :
    st.Steps action st' := by
  unfold flusherStep at h
  split at h
  · exact Option.some.inj h ▸ .writeSst hflusher
  · exact Option.some.inj h ▸ .appendManifest hflusher
  · exact Option.some.inj h ▸ .clearMemtable hflusher
  · exact Option.some.inj h ▸ .checkWalSize hflusher
  · exact Option.some.inj h ▸ .resetWal hflusher
  · simp at h

theorem steps_of_step (h : st.step action = some st') : st.Steps action st' := by
  have hwriter : st.writer.bind (st.writerStep action) = some st' → st.Steps action st' := by
    intro h
    obtain ⟨writer, hwriter, hstep⟩ := Option.bind_eq_some_iff.mp h
    exact steps_of_writerStep hwriter hstep
  have hflusher : st.flusher.bind (st.flusherStep action) = some st' → st.Steps action st' := by
    intro h
    obtain ⟨phase, hflusher, hstep⟩ := Option.bind_eq_some_iff.mp h
    exact steps_of_flusherStep hflusher hstep
  cases action with
  | lockWrite batch =>
    simp only [step] at h
    split_ifs at h with henabled
    exact Option.some.inj h ▸ .lockWrite (Option.isNone_iff_eq_none.mp henabled.1) henabled.2
  | drain =>
    simp only [step] at h
    split_ifs at h with hfree
    exact Option.some.inj h ▸ .drain (Option.isNone_iff_eq_none.mp hfree)
  | lockCompaction index =>
    simp only [step] at h
    split_ifs at h with hfree
    obtain ⟨rows, hrows, rfl⟩ := Option.map_eq_some_iff.mp h
    exact .lockCompaction (Option.isNone_iff_eq_none.mp hfree) hrows
  | beginRead => exact Option.some.inj h ▸ .beginRead
  | read index key =>
    obtain ⟨reader, hreader, rfl⟩ := Option.map_eq_some_iff.mp h
    exact .read hreader
  | dropReader index =>
    obtain ⟨reader, hreader, rfl⟩ := Option.map_eq_some_iff.mp h
    exact .dropReader hreader
  | appendWal | takeTimestamp | install | acknowledge | unlockWrite => exact hwriter h
  | writeSst env | appendManifest | clearMemtable | checkWalSize | resetWal => exact hflusher h

/-! ## Drains -/

theorem drain_of_empty (hempty : st.engine.memtable.drainInto = []) :
    st.drain = st :=
  if_pos hempty

theorem drain_of_ne (hne : st.engine.memtable.drainInto ≠ []) :
    st.drain = { st with
      engine := { st.engine with memtable := st.engine.memtable.clear }
      drained := st.drained ++ [st.engine.memtable.drainInto] } :=
  if_neg hne

theorem drain_frame (st : SharedEngine) : ∃ memtable drained, st.drain =
    { st with engine := { st.engine with memtable := memtable }, drained := drained } := by
  by_cases hempty : st.engine.memtable.drainInto = []
  · exact ⟨st.engine.memtable, st.drained, drain_of_empty hempty⟩
  · exact ⟨_, _, drain_of_ne hempty⟩

/-! ## Uninterrupted calls -/

/-- The install steps of a commit amount to `apply_mutations_batch`. -/
theorem run_install (st : SharedEngine) (commit : Commit) (todo : List Mutation)
    (queue : List PendingWrite) (hwriter : st.writer = some (.installing commit todo queue)) :
    run step st (List.replicate todo.length .install) =
      some { st with
        engine := { st.engine with memtable :=
          st.engine.memtable.applyMutationsBatch commit.txId todo commit.commitTs }
        writer := some (.installing commit [] queue) } := by
  induction todo generalizing st with
  | nil =>
    rw [← hwriter]
    rfl
  | cons m todo ih =>
    rw [List.length_cons, List.replicate_succ, run]
    have hstep : st.step .install = some (st.install commit m todo queue) := by
      simp only [step, hwriter]
      rfl
    rw [hstep, Option.bind_some, ih _ rfl]
    rfl

/-- A commit that no other step interrupts is the sequential commit. -/
theorem run_commit (st : SharedEngine) (w : PendingWrite) (hwriter : st.writer = none) :
    run step st ([.lockWrite [w], .appendWal, .takeTimestamp] ++
        (List.replicate w.mutations.length .install ++ [.acknowledge, .unlockWrite])) =
      some { st with
        engine := st.engine.committed w.txId w.mutations
        wal := st.wal ++ encodeMutations w.txId w.mutations
        published := ⟨w.txId, st.engine.commitSeq, w.mutations⟩ :: st.published
        acked := ⟨w.txId, st.engine.commitSeq, w.mutations⟩ :: st.acked } := by
  have hstart : run step st [.lockWrite [w], .appendWal, .takeTimestamp] =
      some { st with
        engine := { st.engine with commitSeq := st.engine.commitSeq + 1 }
        wal := st.wal ++ encodeMutations w.txId w.mutations
        writer := some (.installing ⟨w.txId, st.engine.commitSeq, w.mutations⟩ w.mutations [])
        published := ⟨w.txId, st.engine.commitSeq, w.mutations⟩ :: st.published } := by
    simp [run, step, hwriter, writerStep, appendWal, takeTimestamp]
  refine run_append_eq_some.mpr ⟨_, hstart, ?_⟩
  refine run_append_eq_some.mpr ⟨_, run_install _ _ w.mutations [] rfl, ?_⟩
  rw [hwriter]
  rfl

def commitSteps (value : Bytes) : List Action :=
  [.lockWrite [.ofCons 0 (.put [107] value) []], .appendWal,
    .takeTimestamp, .install, .acknowledge, .unlockWrite]

/-- No guard is held, and no rows are on their way to a file. -/
structure Quiet (st : SharedEngine) : Prop where
  writer : st.writer = none
  flusher : st.flusher = none
  drained : st.drained = []

/-- A flush that no other step interrupts is the sequential flush. -/
theorem Quiet.run_flush (h : st.Quiet) (env : SstEnv) (hne : st.engine.memtable.drainInto ≠ []) :
    run step st ([.drain, .lockCompaction 0, .writeSst env, .appendManifest, .clearMemtable,
        .checkWalSize] ++ if st.walMaxSizeBytes < walSize st.wal then [.resetWal] else []) =
      some { st with
        engine := st.engine.flush env
        wal := if st.walMaxSizeBytes < walSize st.wal then [] else st.wal } := by
  obtain ⟨hwriter, hflusher, hdrained⟩ := h
  split_ifs with hsize <;>
    simp [run, step, flusherStep, drain, writeSst, appendManifest, clearMemtable, checkWalSize,
      resetWal, hsize, Engine.flush, Engine.flushSstLocked, hwriter, hflusher, hdrained, hne]

/-- A commit or a flush of the sequential engine. -/
def sequential (e : Engine) : PendingWrite ⊕ SstEnv → Engine
  | .inl w => e.committed w.txId w.mutations
  | .inr env => e.flush env

/-- Every sequential history of commits and flushes is a run of the protocol. -/
theorem exists_run_sequential (walMaxSizeBytes : ℕ) (calls : List (PendingWrite ⊕ SstEnv)) :
    ∃ actions st, run step (initial walMaxSizeBytes) actions = some st ∧ st.Quiet ∧
      st.engine = calls.foldl sequential .initial := by
  -- The induction is on the calls, from any quiet state.
  suffices hall : ∀ st : SharedEngine, st.Quiet → ∃ actions st', run step st actions = some st' ∧
      st'.Quiet ∧ st'.engine = calls.foldl sequential st.engine from
    hall (initial walMaxSizeBytes) ⟨rfl, rfl, rfl⟩
  induction calls with
  | nil => exact fun st h ↦ ⟨[], st, rfl, h, rfl⟩
  | cons call calls ih =>
    intro st h
    obtain ⟨first, next, hfirst, hquiet, hnext⟩ : ∃ actions st', run step st actions = some st' ∧
        st'.Quiet ∧ st'.engine = sequential st.engine call := by
      cases call with
      | inl w => exact ⟨_, _, run_commit st w h.writer, ⟨h.writer, h.flusher, h.drained⟩, rfl⟩
      | inr env =>
        by_cases hne : st.engine.memtable.drainInto = []
        · exact ⟨[], st, rfl, h, (Engine.flush_of_nil hne).symm⟩
        · exact ⟨_, _, h.run_flush env hne, ⟨h.writer, h.flusher, h.drained⟩, rfl⟩
    obtain ⟨rest, last, hrest, hlast, hengine⟩ := ih next hquiet
    refine ⟨first ++ rest, last, run_append_eq_some.mpr ⟨next, hfirst, hrest⟩, hlast, ?_⟩
    rw [hengine, hnext]
    rfl

end SharedEngine

end HatP
