import HatP.CompactionReads
import HatP.Wal.Recovery

/-!
# Restarts

A flush keeps the log until it has grown beyond a threshold, so replay installs
commits again that are in the files already, under new timestamps above
everything in the files.  What survives is the newest value of every key: the
log holds the last effect on each key that the memtable holds, and for the other
keys of the log the last effect in the log is the newest one overall.
-/

namespace HatP

open LittleEndian Transition

/-! ## Newest values -/

namespace Engine

variable {e' : Engine} {p : ℕ × Option Bytes}

def IsNewest (e : Engine) (key : Bytes) (p : ℕ × Option Bytes) : Prop :=
  p ∈ e.heldStamps key ∧ ∀ q ∈ e.heldStamps key, q.1 ≤ p.1

/-- The newest values of `key`: none for a key without versions, otherwise one,
with `none` for a tombstone. -/
def newestValues (e : Engine) (key : Bytes) : Set (Option Bytes) :=
  {value | ∃ ts, e.IsNewest key (ts, value)}

variable {e : Engine} {key : Bytes}

theorem newestValues_congr (h : e'.heldStamps key = e.heldStamps key) :
    e'.newestValues key = e.newestValues key := by
  unfold newestValues IsNewest
  rw [h]

section

variable (h : e.Inv)

include h

theorem Inv.exists_isNewest (hp : p ∈ e.heldStamps key) : ∃ q, e.IsNewest key q := by
  have hbdd : BddAbove (Prod.fst '' e.heldStamps key) := by
    refine ⟨e.commitSeq, ?_⟩
    rintro t ⟨q, hq, rfl⟩
    exact (h.begun key q hq).le
  obtain ⟨q, hq, hmax⟩ := Nat.sSup_mem (Set.Nonempty.image _ ⟨p, hp⟩) hbdd
  exact ⟨q, hq, fun r hr ↦ hmax ▸ le_csSup hbdd ⟨r, hr, rfl⟩⟩

theorem Inv.newestValues_eq {value : Option Bytes} (hv : value ∈ e.newestValues key) :
    e.newestValues key = {value} := by
  obtain ⟨ts, hmem, hmax⟩ := hv
  refine Set.eq_singleton_iff_unique_mem.mpr ⟨⟨ts, hmem, hmax⟩, ?_⟩
  rintro other ⟨ts', hmem', hmax'⟩
  have hts : ts' = ts := le_antisymm (hmax _ hmem') (hmax' _ hmem)
  exact congrArg Prod.snd (h.unique key _ hmem' _ hmem hts)

theorem Inv.newestValues_committed (txId : ℕ) (ms : List Mutation) (key : Bytes) :
    (e.committed txId ms).newestValues key = match netEffect ms key with
      | some value => {value}
      | none => e.newestValues key := by
  cases hnet : netEffect ms key with
  | none =>
    apply newestValues_congr
    ext p
    rw [mem_heldStamps_committed h, hnet]
    simp
  | some value =>
    apply h.committed.newestValues_eq
    refine ⟨e.commitSeq, (mem_heldStamps_committed h).mpr (.inl ⟨rfl, hnet⟩), fun q hq ↦ ?_⟩
    exact Nat.le_of_lt_succ (h.committed.begun key q hq)

theorem Inv.newestValues_flush (env : SstEnv) :
    (e.flush env).newestValues key = e.newestValues key :=
  newestValues_congr (heldStamps_flush h.versionSet env key)

theorem Inv.compacts {src tgt w : ℕ} (hc : Compacts e src tgt w e') : e'.Inv := by
  rcases hc.eq_or_chunks with rfl | ⟨chunks, env, hsplit, rfl⟩
  · exact h
  · exact h.compactChunks hsplit

theorem Inv.newestValues_compacts {src tgt w : ℕ}
    (hc : Compacts e src tgt w e') : e'.newestValues key = e.newestValues key := by
  have hinv := h.compacts hc
  rcases hc.eq_or_chunks with rfl | ⟨chunks, env, hsplit, rfl⟩
  · rfl
  have hsub : (e.merged src tgt w chunks env).heldStamps key ⊆
      e.heldStamps key := heldStamps_compactChunks_subset h.versionSet hsplit key
  have hkept : ∀ p, e.IsNewest key p → (e.merged src tgt w chunks env).IsNewest key p := by
    rintro p ⟨hmem, hmax⟩
    refine ⟨?_, fun q hq ↦ hmax q (hsub hq)⟩
    rcases hmem with hmem | hlive
    · exact .inl hmem
    · refine .inr (stamp_kept_compactChunks h.versionSet hsplit h.copies hlive fun q hq hlt ↦ ?_)
      exact absurd (hmax q (.inr hq)) (not_le.mpr hlt)
  ext value
  constructor
  · rintro ⟨ts, hnewest⟩
    obtain ⟨⟨ts', value'⟩, hbefore⟩ := h.exists_isNewest (hsub hnewest.1)
    have hvalue := hinv.newestValues_eq ⟨ts', hkept _ hbefore⟩
    have hmem : value ∈ ({value'} : Set (Option Bytes)) := hvalue ▸ ⟨ts, hnewest⟩
    rw [Set.mem_singleton_iff.mp hmem]
    exact ⟨ts', hbefore⟩
  · rintro ⟨ts, hnewest⟩
    exact ⟨ts, hkept _ hnewest⟩

end

def heldVersions (e : Engine) (key : Bytes) : Set VersionedValue :=
  {v | v ∈ (e.memtable.chain key).versions} ∪ e.liveVersions key

theorem endTs_of_newest {upper : ℕ} {v : VersionedValue} {vs : List VersionedValue}
    (hdesc : Descending vs) (hends : EndsFrom upper vs) (hv : v ∈ vs)
    (hmax : ∀ u ∈ vs, u.beginTs ≤ v.beginTs) : v.endTs = upper := by
  cases vs with
  | nil => cases hv
  | cons head tail =>
    rcases List.mem_cons.mp hv with rfl | htail
    · exact hends.1
    · have hlt := (List.pairwise_cons.mp hdesc).1 v htail
      exact absurd (hmax head (.head _)) (not_le.mpr hlt)

theorem Inv.newest_visible (h : e.Inv) (hsnapshot : e.snapshotTs < openEndedTs)
    (hp : e.IsNewest key p) :
    ∃ v ∈ e.heldVersions key, v.stamp = p ∧ v.visibleAt e.snapshotTs = true := by
  obtain ⟨hmem, hmax⟩ := hp
  have hbegun : p.1 ≤ e.snapshotTs := Nat.le_sub_one_of_lt (h.begun key p hmem)
  rcases hmem with ⟨v, hv, rfl⟩ | ⟨v, ⟨i, hlive, hv⟩, rfl⟩
  · have hend : v.endTs = openEndedTs :=
      endTs_of_newest (e.memtable.chain key).descending (h.memtable_tiled key) hv
        fun u hu ↦ hmax u.stamp (.inl (stamp_mem_stamps hu))
    refine ⟨v, .inl hv, rfl, ?_⟩
    rw [VersionedValue.visibleAt_eq_true, hend]
    exact ⟨hbegun, hsnapshot⟩
  · have hend : v.endTs = openEndedTs :=
      endTs_of_newest ((h.sorted i hlive).descending key) (h.tiled i hlive key) hv
        fun u hu ↦ hmax u.stamp (.inr ⟨u, ⟨i, hlive, hu⟩, rfl⟩)
    refine ⟨v, .inr ⟨i, hlive, hv⟩, rfl, ?_⟩
    rw [VersionedValue.visibleAt_eq_true, hend]
    exact ⟨hbegun, hsnapshot⟩

/-! ## Opening an engine -/

def sstMaxCommit (e : Engine) : ℕ :=
  (e.liveFiles.flatMap fun file ↦
    (readAll (e.rowsOf file)).map fun row ↦ row.version.beginTs).foldr max ⊥

def restarted (e : Engine) : Engine where
  memtable := ∅
  commitSeq := e.sstMaxCommit + 1
  versionSet := e.versionSet
  ssts := e.ssts
  hotKeyCache := ∅
  droppedTables := e.versionSet.dropped
  pinnedSnapshots := ∅

theorem le_sstMaxCommit (hp : p ∈ e.liveStamps key) : p.1 ≤ e.sstMaxCommit := by
  obtain ⟨v, ⟨i, hlive, hv⟩, rfl⟩ := hp
  have hstored : v.stored ∈ versionsOf (readAll (e.rowsOf i)) key := by
    rw [versionsOf_readAll]
    exact List.mem_map_of_mem hv
  have hmem : v.beginTs ∈ e.liveFiles.flatMap fun file ↦
      (readAll (e.rowsOf file)).map fun row ↦ row.version.beginTs :=
    List.mem_flatMap.mpr ⟨i, mem_liveFiles.mpr hlive,
      List.mem_map.mpr ⟨_, mem_versionsOf.mp hstored, rfl⟩⟩
  exact List.le_max_of_le hmem le_rfl

theorem exists_row_sstMaxCommit (hpos : 0 < e.sstMaxCommit) :
    ∃ i, e.IsLive i ∧ ∃ row ∈ e.rowsOf i, row.version.beginTs = e.sstMaxCommit := by
  unfold sstMaxCommit at hpos ⊢
  set stamps := e.liveFiles.flatMap fun file ↦
    (readAll (e.rowsOf file)).map fun row ↦ row.version.beginTs with hstamps
  have hne : stamps ≠ [] := by
    intro hnil
    rw [hnil] at hpos
    exact absurd hpos (Nat.lt_irrefl 0)
  have hmem := List.maximum_mem (List.foldr_max_of_ne_nil hne).symm
  rw [hstamps] at hmem
  obtain ⟨i, hi, hrow⟩ := List.mem_flatMap.mp hmem
  obtain ⟨stored, hstored, hts⟩ := List.mem_map.mp hrow
  obtain ⟨row, hmemRow, rfl⟩ := List.mem_map.mp hstored
  exact ⟨i, mem_liveFiles.mp hi, row, hmemRow, hts⟩

theorem Inv.sstMaxCommit_lt (h : e.Inv) (hpos : 0 < e.commitSeq) :
    e.sstMaxCommit < e.commitSeq := by
  rcases Nat.eq_zero_or_pos e.sstMaxCommit with hzero | hmax
  · rw [hzero]
    exact hpos
  · obtain ⟨i, hlive, row, hrow, hts⟩ := exists_row_sstMaxCommit hmax
    rw [← hts]
    exact h.begun row.key row.version.stamp
      (.inr ⟨row.version, ⟨i, hlive, mem_versionsOf.mpr hrow⟩, rfl⟩)

theorem heldStamps_restarted (e : Engine) (key : Bytes) :
    e.restarted.heldStamps key = e.liveStamps key := by
  have hempty : stamps (e.restarted.memtable.chain key).versions = ∅ := by
    change stamps ((∅ : MemTable).chain key).versions = ∅
    rw [MemTable.chain_empty]
    exact stamps_nil
  rw [heldStamps, hempty, Set.empty_union]
  rfl

theorem Inv.restarted (h : e.Inv) : e.restarted.Inv where
  versionSet := h.versionSet
  memtable_tiled := MemTable.tiled_clear ∅
  sorted := h.sorted
  tiled := h.tiled
  retired := h.retired
  metadata := h.metadata
  begun key p hp := by
    rw [heldStamps_restarted] at hp
    exact Nat.lt_succ_of_le (le_sstMaxCommit hp)
  unique key p hp q hq := by
    rw [heldStamps_restarted] at hp hq
    exact h.unique key p (.inr hp) q (.inr hq)

theorem Inv.afterCommits (h : e.Inv) (commits : List PendingWrite) :
    (e.afterCommits commits).Inv := by
  induction commits generalizing e with
  | nil => exact h
  | cons w commits ih => exact ih h.committed

theorem afterCommits_eq (e : Engine) (commits : List PendingWrite) :
    e.afterCommits commits =
      { e with
        memtable := (e.afterCommits commits).memtable
        commitSeq := (e.afterCommits commits).commitSeq } := by
  induction commits generalizing e with
  | nil => rfl
  | cons w commits ih => exact ih (e.committed w.txId w.mutations)

end Engine

def logEffect (commits : List PendingWrite) (key : Bytes) : Option (Option Bytes) :=
  netEffect (commits.flatMap PendingWrite.mutations) key

@[simp] theorem logEffect_nil (key : Bytes) : logEffect [] key = none := rfl

theorem logEffect_cons (w : PendingWrite) (commits : List PendingWrite) (key : Bytes) :
    logEffect (w :: commits) key = (logEffect commits key).or (netEffect w.mutations key) := by
  rw [logEffect, List.flatMap_cons, netEffect_append]
  rfl

theorem logEffect_concat (commits : List PendingWrite) (w : PendingWrite) (key : Bytes) :
    logEffect (commits ++ [w]) key = (netEffect w.mutations key).or (logEffect commits key) := by
  rw [logEffect, List.flatMap_append, netEffect_append, List.flatMap_singleton]
  rfl

namespace Engine

variable {e : Engine}

theorem Inv.newestValues_afterCommits (h : e.Inv) (commits : List PendingWrite) (key : Bytes) :
    (e.afterCommits commits).newestValues key = match logEffect commits key with
      | some value => {value}
      | none => e.newestValues key := by
  induction commits generalizing e with
  | nil => rfl
  | cons w commits ih =>
    have hrest := ih (e := e.committed w.txId w.mutations) h.committed
    rw [h.newestValues_committed] at hrest
    rw [logEffect_cons]
    refine hrest.trans ?_
    cases logEffect commits key with
    | none | some value => rfl

theorem chain_afterCommits (commits : List PendingWrite) {key : Bytes}
    (hnone : logEffect commits key = none) (hchain : (e.memtable.chain key).versions = []) :
    ((e.afterCommits commits).memtable.chain key).versions = [] := by
  induction commits generalizing e with
  | nil => exact hchain
  | cons w commits ih =>
    rw [logEffect_cons, Option.or_eq_none_iff] at hnone
    refine ih hnone.1 (List.eq_nil_iff_forall_not_mem.mpr fun v hv ↦ ?_)
    have hstamp := (MemTable.mem_stamps_applyMutationsBatch e.memtable w.txId e.commitSeq
      w.mutations key v.stamp).mp (stamp_mem_stamps hv)
    rw [hnone.2, hchain] at hstamp
    simp at hstamp

/-- The log holds everything that the files do not hold, and its last effect on
a key is the newest. -/
structure LoggedBy (e : Engine) (commits : List PendingWrite) : Prop where
  newest : ∀ key value, logEffect commits key = some value → value ∈ e.newestValues key
  unlogged : ∀ key, logEffect commits key = none → (e.memtable.chain key).versions = []

section LoggedBy

variable {commits : List PendingWrite}

theorem loggedBy_initial : initial.LoggedBy [] where
  newest _ _ h := by cases h
  unlogged key _ := by
    change ((∅ : MemTable).chain key).versions = []
    rw [MemTable.chain_empty]
    rfl

theorem LoggedBy.committed (h : e.LoggedBy commits) (hinv : e.Inv) (w : PendingWrite) :
    (e.committed w.txId w.mutations).LoggedBy (commits ++ [w]) where
  newest key value hvalue := by
    rw [logEffect_concat] at hvalue
    rw [hinv.newestValues_committed]
    cases hnet : netEffect w.mutations key with
    | none =>
      rw [hnet, Option.none_or] at hvalue
      exact h.newest key value hvalue
    | some last =>
      rw [hnet, Option.some_or] at hvalue
      exact Option.some.inj hvalue.symm
  unlogged key hnone := by
    rw [logEffect_concat, Option.or_eq_none_iff] at hnone
    exact chain_afterCommits [w] (by simp [logEffect_cons, hnone.1]) (h.unlogged key hnone.2)

theorem LoggedBy.flush (h : e.LoggedBy commits) (hinv : e.Inv) (env : SstEnv) :
    (e.flush env).LoggedBy commits where
  newest key value hvalue := by
    rw [hinv.newestValues_flush]
    exact h.newest key value hvalue
  unlogged key hnone := by
    by_cases hne : e.memtable.drainInto = []
    · rw [flush_of_nil hne]
      exact h.unlogged key hnone
    · rw [chain_flush hne]
      rfl

theorem Compacts.memtable_eq {e' : Engine} {src tgt w : ℕ} (hc : Compacts e src tgt w e') :
    e'.memtable = e.memtable := by
  rcases hc.eq_or_chunks with rfl | ⟨chunks, env, -, rfl⟩
  · rfl
  · rfl

theorem LoggedBy.compacts {e' : Engine} {src tgt w : ℕ} (h : e.LoggedBy commits)
    (hinv : e.Inv) (hc : Compacts e src tgt w e') : e'.LoggedBy commits where
  newest key value hvalue := by
    rw [hinv.newestValues_compacts hc]
    exact h.newest key value hvalue
  unlogged key hnone := by
    rw [hc.memtable_eq]
    exact h.unlogged key hnone

/-- Replaying the log on the files gives back the newest values. -/
theorem LoggedBy.newestValues_restart (h : e.LoggedBy commits) (hinv : e.Inv) (key : Bytes) :
    (e.restarted.afterCommits commits).newestValues key = e.newestValues key := by
  rw [hinv.restarted.newestValues_afterCommits]
  cases hlog : logEffect commits key with
  | some value => exact (hinv.newestValues_eq (h.newest key value hlog)).symm
  | none =>
    apply newestValues_congr
    rw [heldStamps_restarted, heldStamps, h.unlogged key hlog, stamps_nil, Set.empty_union]

theorem LoggedBy.restart (h : e.LoggedBy commits) (hinv : e.Inv) :
    (e.restarted.afterCommits commits).LoggedBy commits where
  newest key value hvalue := by
    rw [h.newestValues_restart hinv]
    exact h.newest key value hvalue
  unlogged key hnone := by
    apply chain_afterCommits commits hnone
    change ((∅ : MemTable).chain key).versions = []
    rw [MemTable.chain_empty]
    rfl

end LoggedBy

end Engine

/-! ## Histories -/

/-- The operations of a sequential history.  A compaction runs with whatever
watermark the pinned snapshots give, and the threshold of a flush comes from the
configuration of the current session. -/
inductive RestartOp
  | write (txId : ℕ) (mutations : List Mutation)
  | flush (env : SstEnv) (walMaxSizeBytes : ℕ)
  | compact (sourceLevel targetLevel watermark : ℕ) (env : SstEnv)
  | subCompact (sourceLevel targetLevel watermark : ℕ) (env : ℕ → SstEnv)
  | reopen

/-- No key and no value of a write has the length that stands for an absent
value. -/
def RestartOp.Writable : RestartOp → Prop
  | .write txId mutations => txId < 2 ^ 64 ∧ ∀ m ∈ mutations, m.Representable
  | _ => True

namespace LoggedEngine

def writeWithTx (st : LoggedEngine) (txId : ℕ) (mutations : List Mutation) :
    Except EngineError (ℕ × LoggedEngine) := do
  let (commitTs, engine) ← st.engine.writeWithTx txId mutations
  let bytes ← Wal.encodeMutations txId mutations
  return (commitTs, ⟨engine, st.wal ++ bytes⟩)

def ResetsLog (st : LoggedEngine) (walMaxSizeBytes : ℕ) : Prop :=
  st.engine.memtable.drainInto ≠ [] ∧ st.wal.length > walMaxSizeBytes

instance (st : LoggedEngine) (walMaxSizeBytes : ℕ) : Decidable (st.ResetsLog walMaxSizeBytes) :=
  inferInstanceAs (Decidable (_ ∧ _))

def flush (st : LoggedEngine) (env : SstEnv) (walMaxSizeBytes : ℕ) : LoggedEngine where
  engine := st.engine.flush env
  wal := if st.ResetsLog walMaxSizeBytes then [] else st.wal

/-- `Engine::open` after a crash: the log is replayed above the files and then
cut behind its last complete frame. -/
def reopen (st : LoggedEngine) : Except EngineError LoggedEngine := do
  let (records, validBytes) ← Wal.recover st.wal
  let replayed ← (Replay.start st.engine.sstMaxCommit).run records
  return {
    engine := { st.engine.restarted with
      memtable := replayed.memtable
      commitSeq := replayed.nextCommitTs }
    wal := st.wal.take validBytes }

/-- A refused write changes nothing, and an engine that cannot be opened makes
no further steps. -/
def step (st : LoggedEngine) : RestartOp → Option LoggedEngine
  | .write txId mutations =>
    match st.writeWithTx txId mutations with
    | .ok (_, st') => some st'
    | .error _ => some st
  | .flush env walMaxSizeBytes => some (st.flush env walMaxSizeBytes)
  | .compact sourceLevel targetLevel watermark env =>
    some { st with
      engine := st.engine.compactWithWatermark sourceLevel targetLevel watermark env }
  | .subCompact sourceLevel targetLevel watermark env =>
    some { st with engine := st.engine.subCompact sourceLevel targetLevel watermark env }
  | .reopen => st.reopen.toOption

theorem reopen_of_step {st st' : LoggedEngine} (h : st.step .reopen = some st') :
    st.reopen = .ok st' := by
  rw [step] at h
  cases hreopen : st.reopen <;> rw [hreopen] at h <;> cases h
  rfl

/-- The engine can be opened, the newest value of every key is the one before,
and the new snapshot sees the newest version of every key. -/
def SurvivesRestart (st : LoggedEngine) : Prop :=
  ∃ st', st.reopen = .ok st' ∧
    (∀ key, st'.engine.newestValues key = st.engine.newestValues key) ∧
    (∀ key, ∀ p ∈ st'.engine.heldStamps key, p.1 < st'.engine.commitSeq) ∧
    (st'.engine.snapshotTs < openEndedTs → ∀ key p, st'.engine.IsNewest key p →
      ∃ v ∈ st'.engine.heldVersions key, v.stamp = p ∧
        v.visibleAt st'.engine.snapshotTs = true)

/-- The log is the bytes of commits that cover the memtable. -/
structure Inv (st : LoggedEngine) : Prop where
  engine : st.engine.Inv
  log : ∃ commits : List PendingWrite, st.wal = commits.flatMap PendingWrite.bytes ∧
    (∀ w ∈ commits, w.InRange) ∧ st.engine.LoggedBy commits

variable {st : LoggedEngine}

theorem inv_initial : Inv initial where
  engine := Engine.inv_initial
  log := ⟨[], rfl, fun _ h ↦ (by cases h), Engine.loggedBy_initial⟩

theorem writeWithTx_cases (st : LoggedEngine) (txId : ℕ) (mutations : List Mutation) :
    (∃ err, st.writeWithTx txId mutations = .error err) ∨
      ∃ w : PendingWrite, w.txId = txId ∧ w.mutations = mutations ∧
        Wal.encodeMutations w.txId w.mutations = .ok w.bytes ∧
        st.writeWithTx txId mutations = .ok (st.engine.commitSeq,
          ⟨st.engine.committed txId mutations, st.wal ++ w.bytes⟩) := by
  by_cases hnil : mutations = []
  · exact .inl ⟨.emptyBatch, by simp [writeWithTx, Engine.writeWithTx, hnil, bind, Except.bind]⟩
  by_cases htx : txId = 0
  · exact .inl ⟨_, by simp [writeWithTx, Engine.writeWithTx, hnil, htx, bind, Except.bind]; rfl⟩
  have haccept : st.engine.writeWithTx txId mutations =
      .ok (st.engine.commitSeq, st.engine.committed txId mutations) := by
    rw [Engine.writeWithTx, if_neg hnil, if_neg htx]
    rfl
  cases hencode : Wal.encodeMutations txId mutations with
  | error err =>
    exact .inl ⟨err, by simp [writeWithTx, haccept, hencode, bind, Except.bind]⟩
  | ok bytes =>
    obtain ⟨-, rfl⟩ := Wal.encodeRecords_eq_ok_iff.mp hencode
    refine .inr ⟨⟨txId, mutations, htx, hnil⟩, rfl, rfl, hencode, ?_⟩
    simp [writeWithTx, haccept, hencode, bind, Except.bind, pure, Except.pure,
      PendingWrite.bytes, PendingWrite.frames]

theorem reopen_eq {commits : List PendingWrite} (hwal : st.wal = commits.flatMap PendingWrite.bytes)
    (hrange : ∀ w ∈ commits, w.InRange) :
    st.reopen = .ok ⟨st.engine.restarted.afterCommits commits, st.wal⟩ := by
  have hrecover : Wal.recover st.wal =
      .ok (commits.flatMap PendingWrite.frames, st.wal.length) := by
    rw [hwal, PendingWrite.flatMap_bytes]
    exact Wal.recover_flatMap (PendingWrite.inRange_flatMap_frames hrange)
  have hrun := (Replay.start st.engine.sstMaxCommit).run_commits commits
    fun w _ ↦ by simp [Replay.start]
  obtain ⟨hmemtable, hnext⟩ := (Replay.start st.engine.sstMaxCommit).install_live
    st.engine.restarted commits rfl rfl
  simp only [reopen, hrecover, hrun, bind, Except.bind, pure, Except.pure, hmemtable, hnext,
    List.take_length]
  rw [← Engine.afterCommits_eq]

theorem Inv.survivesRestart (h : Inv st) : st.SurvivesRestart := by
  obtain ⟨commits, hwal, hrange, hlogged⟩ := h.log
  have hinv := h.engine.restarted.afterCommits commits
  exact ⟨_, reopen_eq hwal hrange, hlogged.newestValues_restart h.engine,
    fun key p hp ↦ hinv.begun key p hp, fun hsnapshot key p hp ↦ hinv.newest_visible hsnapshot hp⟩

theorem Inv.step (h : Inv st) {op : RestartOp} {st' : LoggedEngine} (hop : op.Writable)
    (hstep : st.step op = some st') : Inv st' := by
  obtain ⟨commits, hwal, hrange, hlogged⟩ := h.log
  cases op with
  | write txId mutations =>
    rcases st.writeWithTx_cases txId mutations with ⟨err, herr⟩ | ⟨w, rfl, rfl, hencode, hok⟩
    · rw [LoggedEngine.step, herr] at hstep
      cases hstep
      exact h
    · rw [LoggedEngine.step, hok] at hstep
      cases hstep
      have hw : w.InRange := PendingWrite.Representable.inRange ⟨hop.1, hop.2⟩
        (Wal.encodeRecords_eq_ok_iff.mp hencode).1
      refine ⟨h.engine.committed, commits ++ [w], ?_, ?_, hlogged.committed h.engine w⟩
      · rw [hwal, List.flatMap_append, List.flatMap_singleton]
      · intro v hv
        rcases List.mem_append.mp hv with hv | hv
        · exact hrange v hv
        · exact List.mem_singleton.mp hv ▸ hw
  | flush env walMaxSizeBytes =>
    cases hstep
    refine ⟨h.engine.flush env, ?_⟩
    by_cases hreset : st.ResetsLog walMaxSizeBytes
    · refine ⟨[], if_pos hreset, fun _ h ↦ (by cases h), fun _ _ h ↦ (by cases h), fun key _ ↦ ?_⟩
      exact congrArg VersionChain.versions (Engine.chain_flush hreset.1 key)
    · exact ⟨commits, (if_neg hreset).trans hwal, hrange, hlogged.flush h.engine env⟩
  | compact src tgt w env =>
    cases hstep
    have hc : Engine.Compacts st.engine src tgt w _ := .compact env
    exact ⟨h.engine.compacts hc, commits, hwal, hrange, hlogged.compacts h.engine hc⟩
  | subCompact src tgt w env =>
    cases hstep
    have hc : Engine.Compacts st.engine src tgt w _ := .subCompact env
    exact ⟨h.engine.compacts hc, commits, hwal, hrange, hlogged.compacts h.engine hc⟩
  | reopen =>
    rw [LoggedEngine.step, reopen_eq hwal hrange] at hstep
    cases hstep
    exact ⟨h.engine.restarted.afterCommits commits, commits, hwal, hrange, hlogged.restart h.engine⟩

/-- The newest values survive a restart at every point of a history. -/
theorem survivesRestart_along (ops : List RestartOp) (hops : ∀ op ∈ ops, op.Writable) :
    Along LoggedEngine.step SurvivesRestart initial ops :=
  ((stepsMeet_true initial ops).and_of_forall_mem hops).along (I := Inv)
    (fun _ _ _ h hop hstep ↦ h.step hop.2 hstep) (fun _ h ↦ h.survivesRestart) inv_initial

def flushedAndReopened : List RestartOp :=
  [.write 1 [.put [107] [1]], .flush Engine.plainEnv 1000, .write 2 [.delete [107]], .reopen,
    .write 3 [.put [108] [2]], .flush Engine.plainEnv 0, .compact 0 1 5 Engine.plainEnv, .reopen]

theorem survivesRestart_along_flushedAndReopened :
    Along LoggedEngine.step SurvivesRestart initial flushedAndReopened := by
  apply survivesRestart_along
  intro op hop
  simp only [flushedAndReopened, List.mem_cons, List.not_mem_nil, or_false] at hop
  rcases hop with rfl | rfl | rfl | rfl | rfl | rfl | rfl | rfl
  · exact ⟨by decide, by decide⟩
  · trivial
  · exact ⟨by decide, by decide⟩
  · trivial
  · exact ⟨by decide, by decide⟩
  · trivial
  · trivial
  · trivial

/-- At every point of a history a second restart finds what the first one left. -/
theorem reopen_idempotent_along (ops : List RestartOp) (hops : ∀ op ∈ ops, op.Writable) :
    Along LoggedEngine.step (fun st ↦ ∃ st', st.reopen = .ok st' ∧ st'.reopen = .ok st')
      initial ops := by
  refine ((stepsMeet_true initial ops).and_of_forall_mem hops).along (I := Inv)
    (fun _ _ _ h hop hstep ↦ h.step hop.2 hstep) (fun st h ↦ ?_) inv_initial
  obtain ⟨commits, hwal, hrange, -⟩ := h.log
  have hagain : (st.engine.restarted.afterCommits commits).restarted = st.engine.restarted := by
    rw [Engine.afterCommits_eq]
    rfl
  refine ⟨_, reopen_eq hwal hrange, ?_⟩
  rw [reopen_eq (by exact hwal) hrange, hagain]

theorem reopen_idempotent_along_flushed :
    Along LoggedEngine.step (fun st ↦ ∃ st', st.reopen = .ok st' ∧ st'.reopen = .ok st') initial
      [.write 1 [.put [107] [1]], .flush Engine.plainEnv 1000, .write 2 [.delete [107]]] := by
  apply reopen_idempotent_along
  simp [RestartOp.Writable]
  decide

/-! ## A length that the decoder misreads -/

section LongValue

variable {value zeros : Bytes} (hlen : value.length = Wal.valueNone)
  (hzeros : value = [0, 0, 0, 0] ++ zeros)

include hlen hzeros

theorem decodeFrame_longValue (rest : Bytes) :
    Wal.decodeFrame (Wal.frameBytes ⟨1, .put, [107], some value⟩ ++ rest) 0 = .ok none := by
  obtain ⟨tail, hbuf⟩ : ∃ tail, Wal.frameBytes ⟨1, .put, [107], some value⟩ ++ rest =
      Wal.frameHeader 1 .put 1 Wal.valueNone ++ ([107] ++ ([0, 0, 0, 0] ++ tail)) := by
    refine ⟨zeros ++ (encode 4 (crc32cWithState
      (Wal.frameBody ⟨1, .put, [107], some value⟩) 0).toNat ++ rest), ?_⟩
    rw [Wal.frameBytes_eq]
    dsimp only [Option.map_some, Option.getD_some]
    rw [hlen, hzeros]
    simp only [List.append_assoc, List.length_singleton]
  rw [hbuf]
  set buf := Wal.frameHeader 1 .put 1 Wal.valueNone ++ ([107] ++ ([0, 0, 0, 0] ++ tail)) with hdef
  have hhead : buf = [] ++ ((Wal.frameHeader 1 .put 1 Wal.valueNone ++ [107]) ++
      ([0, 0, 0, 0] ++ tail)) := by
    rw [hdef, List.nil_append, List.append_assoc]
  have hbody : slice buf 0 22 = Wal.frameHeader 1 .put 1 Wal.valueNone ++ [107] :=
    slice_eq hhead rfl rfl
  have hfield : slice buf 22 4 = [0, 0, 0, 0] :=
    slice_eq (hhead.trans (List.nil_append _)) rfl rfl
  have hcrc : (crc32cWithState (Wal.frameHeader 1 .put 1 Wal.valueNone ++ [107]) 0).toNat ≠
      decode [0, 0, 0, 0] := by
    decide +kernel
  have hsize : ¬buf.length < 22 + Wal.frameCrcLen := by
    rw [hdef]
    simp only [List.length_append, Wal.length_frameHeader, List.length_cons, List.length_nil,
      Wal.frameHeaderLen, Wal.frameCrcLen]
    omega
  have hframe := Wal.decodeFrame_frameHeader [] ([107] ++ ([0, 0, 0, 0] ++ tail)) .put
    (by decide : 1 < 256 ^ 8) (by decide : 1 < 256 ^ 4) (by decide : Wal.valueNone < 256 ^ 4)
  rw [List.nil_append, ← hdef] at hframe
  have hend : ([] : Bytes).length + Wal.frameHeaderLen + Wal.lenUsize 1 +
      Wal.lenUsize Wal.valueNone = 22 := by decide
  refine hframe.trans ?_
  dsimp only
  rw [hend, if_neg hsize, if_pos]
  rw [List.length_nil, Nat.sub_zero, hbody, readAt, hfield]
  exact hcrc

theorem recover_longValue (rest : Bytes) :
    Wal.recover (Wal.frameBytes ⟨1, .put, [107], some value⟩ ++ rest) = .ok ([], 0) := by
  have hmagic : (Wal.frameBytes ⟨1, .put, [107], some value⟩ ++ rest).take 4 = Wal.magicWal1 := by
    rw [List.take_append_of_le_length, Wal.take_four_frameBytes]
    rw [Wal.length_frameBytes, Wal.frameCrcLen]
    omega
  have hnil : Wal.frameBytes ⟨1, .put, [107], some value⟩ ++ rest ≠ [] := by
    intro h
    rw [h] at hmagic
    cases hmagic
  have hall : Wal.decodeAll (Wal.frameBytes ⟨1, .put, [107], some value⟩ ++ rest) =
      .ok ([], 0) := by
    rw [Wal.decodeAll, Wal.decodeLoop, decodeFrame_longValue hlen hzeros]
  rw [Wal.recover, if_neg hnil, if_neg (not_not.mpr hmagic), hall]

theorem write_longValue :
    ∃ st st', initial.step (.write 1 [.put [107] value]) = some st ∧
      some value ∈ st.engine.newestValues [107] ∧ st.reopen = .ok st' ∧
      st'.engine.newestValues [107] = ∅ := by
  have hwrite : initial.step (.write 1 [.put [107] value]) =
      some ⟨Engine.initial.committed 1 [.put [107] value],
        (encodeMutations 1 [.put [107] value]).flatMap Wal.frameBytes⟩ := by
    have hencode : Wal.encodeMutations 1 [.put [107] value] =
        .ok ((encodeMutations 1 [.put [107] value]).flatMap Wal.frameBytes) := by
      refine Wal.encodeRecords_eq_ok_iff.mpr ⟨fun r hr ↦ ?_, rfl⟩
      simp only [encodeMutations, List.map_cons, List.map_nil, List.cons_append, List.nil_append,
        List.mem_cons, List.not_mem_nil, or_false] at hr
      rcases hr with rfl | rfl
      · exact ⟨(by decide : 1 ≤ Wal.maxU32), hlen.le⟩
      · exact ⟨by decide, by decide⟩
    rw [LoggedEngine.step, writeWithTx, Engine.writeWithTx, if_neg (List.cons_ne_nil _ _),
      if_neg (by decide)]
    simp only [bind, Except.bind, hencode, pure, Except.pure]
    rfl
  refine ⟨_, ⟨Engine.initial.restarted, []⟩, hwrite, ?_, ?_, ?_⟩
  · rw [Engine.inv_initial.newestValues_committed]
    exact rfl
  · have hrecover := recover_longValue hlen hzeros (Wal.frameBytes ⟨1, .commit, [], none⟩)
    have hbytes : (encodeMutations 1 [.put [107] value]).flatMap Wal.frameBytes =
        Wal.frameBytes ⟨1, .put, [107], some value⟩ ++ Wal.frameBytes ⟨1, .commit, [], none⟩ := by
      simp [encodeMutations, Mutation.walRecord]
    rw [← hbytes] at hrecover
    have hmax : (Engine.initial.committed 1 [.put [107] value]).sstMaxCommit =
        Engine.initial.sstMaxCommit := rfl
    simp only [reopen, hrecover, Replay.run, List.foldlM_nil, bind, Except.bind, pure, Except.pure,
      List.take_zero, hmax]
    rfl
  · refine Set.eq_empty_iff_forall_notMem.mpr ?_
    rintro v ⟨ts, hmem, -⟩
    rw [Engine.heldStamps_restarted] at hmem
    have hheld : (ts, v) ∈ Engine.initial.heldStamps [107] := .inr hmem
    rw [Engine.heldStamps_initial] at hheld
    exact hheld

end LongValue

def longValue : Bytes := [0, 0, 0, 0] ++ List.replicate (Wal.valueNone - 4) 0

theorem write_longValue_lost :
    ∃ st, run LoggedEngine.step initial [.write 1 [.put [107] longValue]] = some st ∧
      some longValue ∈ st.engine.newestValues [107] ∧ ¬st.SurvivesRestart := by
  have hlen : longValue.length = Wal.valueNone := by
    rw [longValue, List.length_append, List.length_replicate]
    rfl
  obtain ⟨st, st', hstep, hnewest, hreopen, hgone⟩ := write_longValue hlen rfl
  refine ⟨st, run_cons_eq_some.mpr ⟨st, hstep, rfl⟩, hnewest, ?_⟩
  rintro ⟨st'', hopened, hsame, -⟩
  rw [hreopen] at hopened
  cases hopened
  rw [← hsame, hgone] at hnewest
  exact hnewest

end LoggedEngine

end HatP
