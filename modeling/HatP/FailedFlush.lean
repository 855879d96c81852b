import HatP.FlushReads

/-!
# Flushes that fail

A flush empties the memtable and then writes the SST, appends to the manifest,
perhaps rewrites it, and perhaps resets the log.  An error before the manifest
has published the file leaves the rows nowhere that a read looks.  An error
after that point is reported although the flush has taken effect.
-/

namespace HatP

open Transition

/-- The steps of a flush that end it when they fail.  A sidecar that cannot be
written is only reported. -/
inductive FlushStep
  | sstWrite
  | manifestAppend
  | manifestRewrite
  | walReset
deriving DecidableEq

structure FlushEnv where
  sst : SstEnv
  walMaxSizeBytes : ℕ
  /-- How many edits the manifest has counted since its last rewrite. -/
  editCount : ℕ
  /-- The errors of the steps that fail. -/
  fault : FlushStep → Option EngineError
  /-- A reset that fails has cut the log before. -/
  emptied : Bool

namespace LoggedEngine

def flushEdits (e : Engine) (rows : List VersionedRow) (env : FlushEnv) : List VersionEdit :=
  (EngineBatch.flush rows env.sst).edits e.versionSet

def rewriteFault (e : Engine) (edits : List VersionEdit) (env : FlushEnv) : Option EngineError :=
  if Manifest.Rewrites ⟨e.versionSet, env.editCount⟩ edits then
    match Manifest.encodeEdits (e.versionSet.applied edits).toEdits with
    | .error err => some err
    | .ok _ => env.fault .manifestRewrite
  else none

/-- The second phase of a flush, with the errors that the environment decides. -/
def flushSstLocked (st : LoggedEngine) (rows : List VersionedRow) (env : FlushEnv) :
    Except EngineError (Option FileMeta) × LoggedEngine :=
  if rows = [] then (.ok none, st)
  else
    match env.fault .sstWrite with
    | some err => (.error err, st)
    | none =>
      match Manifest.encodeEdits (flushEdits st.engine rows env), env.fault .manifestAppend with
      | .error err, _ => (.error err, st)
      | .ok _, some err => (.error err, st)
      | .ok _, none =>
        let published := { st with engine := st.engine.flushSstLocked rows env.sst }
        match rewriteFault st.engine (flushEdits st.engine rows env) env with
        | some err => (.error err, published)
        | none =>
          if st.wal.length > env.walMaxSizeBytes then
            match env.fault .walReset with
            | some err =>
              (.error err, { published with wal := if env.emptied then [] else st.wal })
            | none => (.ok (some (handleMeta rows env.sst)), { published with wal := [] })
          else (.ok (some (handleMeta rows env.sst)), published)

def tryFlush (st : LoggedEngine) (env : FlushEnv) :
    Except EngineError (Option FileMeta) × LoggedEngine :=
  let rows := st.engine.memtable.drainInto
  if rows = [] then (.ok none, st)
  else
    { st with engine := { st.engine with memtable := st.engine.memtable.clear } }.flushSstLocked
      rows env

/-- Nothing fails before the manifest has published the new file. -/
def Publishes (st : LoggedEngine) (env : FlushEnv) : Prop :=
  env.fault .sstWrite = none ∧
    (Manifest.encodeEdits (flushEdits st.engine st.engine.memtable.drainInto env)).isOk = true ∧
    env.fault .manifestAppend = none

instance (st : LoggedEngine) (env : FlushEnv) : Decidable (st.Publishes env) :=
  inferInstanceAs (Decidable (_ ∧ _ ∧ _))

end LoggedEngine

def Engine.cleared (e : Engine) : Engine := { e with memtable := e.memtable.clear }

namespace LoggedEngine

variable {st st' : LoggedEngine} {env : FlushEnv}

/-- A flush that succeeds is the flush of the histories; one that fails has lost
the memtable or has done all but its last steps. -/
inductive Flushes (st : LoggedEngine) (env : FlushEnv) :
    Except EngineError (Option FileMeta) × LoggedEngine → Prop
  | done (handle : Option FileMeta) :
      Flushes st env (.ok handle, st.flush env.sst env.walMaxSizeBytes)
  | lost (err : EngineError) (hne : st.engine.memtable.drainInto ≠ [])
      (hfails : ¬st.Publishes env) :
      Flushes st env (.error err, { st with engine := st.engine.cleared })
  | late (err : EngineError) (wal : Bytes) (hne : st.engine.memtable.drainInto ≠ [])
      (hpublishes : st.Publishes env) :
      Flushes st env (.error err, ⟨st.engine.flush env.sst, wal⟩)

theorem flushes_tryFlush (st : LoggedEngine) (env : FlushEnv) :
    st.Flushes env (st.tryFlush env) := by
  rw [tryFlush]
  dsimp only
  split
  next hnil =>
    have hsame : st.flush env.sst env.walMaxSizeBytes = st := by
      rw [flush, Engine.flush_of_nil hnil, if_neg fun hresets ↦ hresets.1 hnil]
    have hdone : st.Flushes env (.ok none, st.flush env.sst env.walMaxSizeBytes) := .done none
    rw [hsame] at hdone
    exact hdone
  next hne =>
    have hflush : st.engine.flush env.sst =
        ({ st.engine with memtable := st.engine.memtable.clear } : Engine).flushSstLocked
          st.engine.memtable.drainInto env.sst := by
      rw [Engine.flush, if_neg hne]
    rw [flushSstLocked, if_neg hne]
    split
    next err hsst =>
      refine .lost err hne fun hpublishes ↦ ?_
      exact absurd (hsst.symm.trans hpublishes.1) (Option.some_ne_none err)
    next hsst =>
      split
      next err hencode =>
        refine .lost err hne fun hpublishes ↦ ?_
        have hok := hpublishes.2.1
        rw [show Manifest.encodeEdits (flushEdits st.engine st.engine.memtable.drainInto env) =
          .error err from hencode] at hok
        cases hok
      next err _ happend =>
        refine .lost err hne fun hpublishes ↦ ?_
        exact absurd (happend.symm.trans hpublishes.2.2) (Option.some_ne_none err)
      next bytes hencode happend =>
        have hpublishes : st.Publishes env := by
          refine ⟨hsst, ?_, happend⟩
          rw [show Manifest.encodeEdits (flushEdits st.engine st.engine.memtable.drainInto env) =
            .ok bytes from hencode]
          rfl
        have hdone : st.Flushes env (.ok (some (handleMeta st.engine.memtable.drainInto env.sst)),
            st.flush env.sst env.walMaxSizeBytes) := .done _
        dsimp only
        rw [← hflush]
        split
        next err _ => exact .late err st.wal hne hpublishes
        next =>
          split
          next hlong =>
            split
            next err _ => exact .late err _ hne hpublishes
            next =>
              rw [flush, if_pos ⟨hne, hlong⟩] at hdone
              exact hdone
          next hshort =>
            rw [flush, if_neg fun hresets ↦ hshort hresets.2] at hdone
            exact hdone

end LoggedEngine

/-! ## A lost memtable -/

namespace Engine

variable {key : Bytes} {s : ℕ}

variable {e : Engine} {value : Option Bytes}

theorem chain_cleared (e : Engine) (key : Bytes) :
    (e.cleared.memtable.chain key).versions = [] := by
  rw [Engine.cleared, MemTable.chain_clear]
  rfl

theorem Inv.cleared (h : e.Inv) : e.cleared.Inv := by
  have hheld : ∀ key, e.cleared.heldStamps key ⊆ e.heldStamps key := fun key p hp ↦ by
    rcases hp with hp | hp
    · rw [chain_cleared, stamps_nil] at hp
      exact absurd hp (Set.notMem_empty p)
    · exact .inr hp
  exact
    { versionSet := h.versionSet
      memtable_tiled := e.memtable.tiled_clear
      sorted := h.sorted
      tiled := h.tiled
      retired := h.retired
      metadata := h.metadata
      begun := fun key p hp ↦ h.begun key p (hheld key hp)
      unique := fun key p hp q hq ↦ h.unique key p (hheld key hp) q (hheld key hq) }

theorem ReadInv.cleared (h : e.ReadInv) : e.cleared.ReadInv where
  inv := h.inv.cleared
  newer := newerThanFiles_of_empty e.chain_cleared
  written := h.written
  present := h.present
  used := h.used

/-- Every row of the memtable repeats the value that its key has in the files. -/
def Redundant (e : Engine) : Prop :=
  ∀ row ∈ e.memtable.drainInto, ∃ ts,
    Newest.IsNewestAt Prod.fst (e.liveStamps row.key) row.version.beginTs (ts, row.version.value)

theorem Inv.showsValue_of_chain (h : e.Inv) (hseq : e.commitSeq ≤ openEndedTs)
    {v : VersionedValue} (hv : v ∈ (e.memtable.chain key).versions) :
    e.ShowsValue key v.beginTs v.value := by
  have hbelow : ∀ u ∈ (e.memtable.chain key).versions, u.beginTs < openEndedTs := fun u hu ↦
    (h.begun key u.stamp (.inl (stamp_mem_stamps hu))).trans_le hseq
  have hends := endTs_le_of_endsFrom (e.memtable.chain key).descending (h.memtable_tiled key)
    hbelow hv
  have hsees : v.visibleAt v.beginTs = true :=
    VersionedValue.visibleAt_eq_true.mpr ⟨le_rfl, hends.1⟩
  refine ⟨v.beginTs, ⟨v, ⟨hsees, .inl hv⟩, rfl⟩, ?_⟩
  rintro q ⟨y, hy, rfl⟩
  exact (VersionedValue.visibleAt_eq_true.mp hy.1).1

theorem Inv.showsValue_of_sameScans {e' : Engine} (h : e.Inv) (h' : e'.Inv)
    (hseq : e.commitSeq ≤ openEndedTs) (hsame : SameScans e e')
    {v : VersionedValue} (hv : v ∈ (e.memtable.chain key).versions) :
    e'.ShowsValue key v.beginTs v.value := by
  have hshown := h.mem_scanAll_shown.mpr (h.showsValue_of_chain hseq hv)
  rw [← hsame.scanAll] at hshown
  exact h'.mem_scanAll_shown.mp hshown

theorem kept_of_showsValue
    (hempty : (e.memtable.chain key).versions = []) (hshows : e.ShowsValue key s value) :
    e.isDroppedPrefix key = false := by
  obtain ⟨ts, ⟨x, ⟨-, hchain | hfile⟩, -⟩, -⟩ := hshows
  · rw [hempty] at hchain
    cases hchain
  · exact hfile.1

theorem heldStamps_cleared (e : Engine) (key : Bytes) :
    e.cleared.heldStamps key = e.liveStamps key := by
  rw [heldStamps, chain_cleared, stamps_nil, Set.empty_union]
  rfl

theorem Inv.showsValue_cleared (h : e.Inv)
    (hs : s < openEndedTs) (hkept : e.isDroppedPrefix key = false) :
    e.cleared.ShowsValue key s value ↔
      ∃ ts, Newest.IsNewestAt Prod.fst (e.liveStamps key) s (ts, value) := by
  rw [h.cleared.showsValue_iff hs hkept, heldStamps_cleared]

theorem Inv.showsValue_cleared_of_redundant (h : e.Inv) (hseq : e.commitSeq ≤ openEndedTs)
    (hnewer : e.NewerThanFiles) (hkept : e.RowsKept) (hredundant : e.Redundant)
    {u : VersionedValue} (hu : u ∈ (e.memtable.chain key).versions)
    (hsees : u.visibleAt s = true) : e.cleared.ShowsValue key s u.value := by
  have hrow : ⟨key, u⟩ ∈ e.memtable.drainInto := mem_drainInto.mpr hu
  obtain ⟨hbegin, hend⟩ := VersionedValue.visibleAt_eq_true.mp hsees
  have hbelow : ∀ v ∈ (e.memtable.chain key).versions, v.beginTs < openEndedTs := fun v hv ↦
    (h.begun key v.stamp (.inl (stamp_mem_stamps hv))).trans_le hseq
  have hs : s < openEndedTs := hend.trans_le
    (endTs_le_of_endsFrom (e.memtable.chain key).descending (h.memtable_tiled key) hbelow hu).2
  obtain ⟨ts, hmem, hts, hmax⟩ := hredundant ⟨key, u⟩ hrow
  refine (h.showsValue_cleared hs (hkept ⟨key, u⟩ hrow)).mpr ⟨ts, hmem, hts.trans hbegin, ?_⟩
  exact fun q hq _ ↦ hmax q hq (hnewer key u.stamp (stamp_mem_stamps hu) q hq).le

theorem Inv.showsValue_of_visible (h : e.Inv) (hnewer : e.NewerThanFiles)
    {u : VersionedValue} (hu : u ∈ (e.memtable.chain key).versions)
    (hsees : u.visibleAt s = true) : e.ShowsValue key s u.value := by
  refine ⟨u.beginTs, ⟨u, ⟨hsees, .inl hu⟩, rfl⟩, ?_⟩
  rintro q ⟨y, ⟨hysees, hy | ⟨-, i, hi, v, hv, rfl⟩⟩, rfl⟩
  · rw [eq_of_visibleAt (e.memtable.chain key).descending (h.memtable_tiled key) hy hu hysees
      hsees]
    exact le_rfl
  · exact (hnewer key u.stamp (stamp_mem_stamps hu) v.stamp ⟨v, ⟨i, hi, hv⟩, rfl⟩).le

theorem shownStamps_cleared (hnone : ∀ u ∈ (e.memtable.chain key).versions, u.visibleAt s = false) :
    e.cleared.shownStamps key s = e.shownStamps key s := by
  ext p
  constructor
  · rintro ⟨x, ⟨hsees, hchain | hfile⟩, rfl⟩
    · rw [chain_cleared] at hchain
      cases hchain
    · exact ⟨x, ⟨hsees, .inr hfile⟩, rfl⟩
  · rintro ⟨x, ⟨hsees, hchain | hfile⟩, rfl⟩
    · exact absurd (hsees.symm.trans (hnone x hchain)) (by simp)
    · exact ⟨x, ⟨hsees, .inr hfile⟩, rfl⟩

theorem ReadInv.sameScans_cleared_of_redundant (h : e.ReadInv) (hseq : e.commitSeq ≤ openEndedTs)
    (hkept : e.RowsKept) (hredundant : e.Redundant) : SameScans e e.cleared := by
  apply h.inv.sameScans h.inv.cleared
  intro key s value
  by_cases hvisible : ∃ u ∈ (e.memtable.chain key).versions, u.visibleAt s = true
  · obtain ⟨u, hu, hsees⟩ := hvisible
    have hbefore := h.inv.showsValue_of_visible h.newer hu hsees
    have hafter := h.inv.showsValue_cleared_of_redundant hseq h.newer hkept hredundant hu hsees
    constructor
    · intro hvalue
      rw [h.inv.cleared.showsValue_unique hvalue hafter]
      exact hbefore
    · intro hvalue
      rw [h.inv.showsValue_unique hvalue hbefore]
      exact hafter
  · apply showsValue_congr
    apply shownStamps_cleared
    exact fun u hu ↦ Bool.eq_false_iff.mpr fun hsees ↦ hvisible ⟨u, hu, hsees⟩

/-- Losing the memtable leaves the scans as they were exactly when it had nothing
to add. -/
theorem ReadInv.sameScans_cleared_iff (h : e.ReadInv) (hseq : e.commitSeq ≤ openEndedTs) :
    SameScans e e.cleared ↔ e.RowsKept ∧ e.Redundant := by
  constructor
  · intro hsame
    have hshows : ∀ row ∈ e.memtable.drainInto,
        e.cleared.ShowsValue row.key row.version.beginTs row.version.value :=
      fun row hrow ↦ h.inv.showsValue_of_sameScans h.inv.cleared hseq hsame
        (mem_drainInto.mp hrow)
    have hkept : e.RowsKept := fun row hrow ↦
      kept_of_showsValue (e := e.cleared) (e.chain_cleared row.key) (hshows row hrow)
    refine ⟨hkept, fun row hrow ↦ ?_⟩
    have hheld := h.inv.begun row.key row.version.stamp
      (.inl (stamp_mem_stamps (mem_drainInto.mp hrow)))
    exact (h.inv.showsValue_cleared (hheld.trans_le hseq) (hkept row hrow)).mp (hshows row hrow)
  · exact fun hboth ↦ h.sameScans_cleared_of_redundant hseq hboth.1 hboth.2

/-- Moving the memtable to a file leaves the scans as they were exactly when no
row is of a dropped table. -/
theorem ReadInv.sameScans_flush_iff (h : e.ReadInv) (hseq : e.commitSeq ≤ openEndedTs)
    {env : SstEnv} : SameScans e (e.flush env) ↔ e.RowsKept := by
  refine ⟨fun hsame row hrow ↦ ?_, h.inv.sameScans_flush⟩
  have hne : e.memtable.drainInto ≠ [] := List.ne_nil_of_mem hrow
  have hempty : ((e.flush env).memtable.chain row.key).versions = [] := by
    rw [chain_flush hne]
    rfl
  have hshows := h.inv.showsValue_of_sameScans (h.inv.flush env) hseq hsame
    (mem_drainInto.mp hrow)
  rw [← isDroppedPrefix_flush e env row.key]
  exact kept_of_showsValue hempty hshows

end Engine

/-! ## Runs -/

/-- The calls of a history in which flushes may fail. -/
inductive FaultyOp
  | table (op : TableOp)
  | flush (env : FlushEnv)

namespace LoggedEngine

variable {st st' : LoggedEngine} {env : FlushEnv}

def faultyStep (st : LoggedEngine) : FaultyOp → Option LoggedEngine
  | .table op => st.tableStep op
  | .flush env => some (st.tryFlush env).2

theorem readInv_of_flushes (h : st.engine.ReadInv)
    {result : Except EngineError (Option FileMeta) × LoggedEngine}
    (hflushes : st.Flushes env result) : result.2.engine.ReadInv := by
  cases hflushes with
  | done handle | late err wal hne hpublishes => exact h.flush env.sst
  | lost err hne hfails => exact h.cleared

theorem readInv_of_run {ops : List FaultyOp}
    (hrun : run faultyStep initial ops = some st) : st.engine.ReadInv := by
  refine (stepsMeet_true initial ops).run_invariant
    (I := fun st ↦ st.engine.ReadInv) (fun st op st' h _ hstep ↦ ?_) Engine.readInv_initial hrun
  cases op with
  | table op => exact readInv_of_tableStep h hstep
  | flush env =>
    cases hstep
    exact readInv_of_flushes h (st.flushes_tryFlush env)

/-- A flush that fails leaves the scans as they were exactly when no row is of a
dropped table and the manifest has the file or the files had it all; it leaves
the point reads as well when the manifest has a file that can serve them. -/
theorem failed_flush_reads {ops : List FaultyOp} {err : EngineError}
    (hrun : run faultyStep initial ops = some st)
    (hseq : st.engine.commitSeq ≤ openEndedTs) (hfails : st.tryFlush env = (.error err, st')) :
    (st.engine.SameScans st'.engine ↔
      st.engine.RowsKept ∧ (st.Publishes env ∨ st.engine.Redundant)) ∧
      (st.Publishes env → st.engine.Servable env.sst → st.engine.SameReads st'.engine) := by
  have hread := readInv_of_run hrun
  have hflushes := st.flushes_tryFlush env
  rw [hfails] at hflushes
  cases hflushes with
  | lost _ hne hlost =>
    rw [or_iff_right hlost]
    exact ⟨hread.sameScans_cleared_iff hseq, fun hpublishes ↦ absurd hpublishes hlost⟩
  | late _ wal hne hpublishes =>
    have hfound : st.Publishes env ∨ st.engine.Redundant := .inl hpublishes
    rw [and_iff_left hfound]
    refine ⟨hread.sameScans_flush_iff hseq, fun _ hservable ↦ ?_⟩
    exact ⟨hread.inv.sameScans_flush hservable.kept,
      Engine.get_flush hread.inv hseq hservable hne hread.newer hread.written⟩

def oneWrite : PendingWrite := .ofCons 0 (.put [107] [1]) []

def oneRow : LoggedEngine :=
  ⟨Engine.initial.committed oneWrite.txId oneWrite.mutations, oneWrite.bytes⟩

theorem run_oneRow : run faultyStep initial
    [.table (.call (.write oneWrite.txId oneWrite.mutations))] = some oneRow :=
  run_cons_eq_some.mpr
    ⟨_, initial.tableStep_write oneWrite (by decide), run_nil _⟩

def failingAt (step : FlushStep) : FlushEnv where
  sst := Engine.plainEnv
  walMaxSizeBytes := 0
  editCount := 0
  fault := fun other ↦ if other = step then some (.io "no space") else none
  emptied := false

theorem servable_oneRow : oneRow.engine.Servable Engine.plainEnv where
  kept := by
    change ∀ row ∈ oneRow.engine.memtable.drainInto, _
    decide
  unrouted := by decide
  single _ key := by
    change ((MemTable.applyMutation ∅ 1 1 (.put [107] [1])).chain key).versions.length ≤ 1
    rw [MemTable.chain_applyMutation, MemTable.chain_empty]
    split <;> decide
  sized := ⟨by decide, fun i hi ↦ absurd hi (Engine.not_isLive_initial i)⟩

theorem failed_flush_reads_late :
    ∃ st', oneRow.tryFlush (failingAt .walReset) = (.error (.io "no space"), st') ∧
      oneRow.engine.SameReads st'.engine := by
  have hfails : (oneRow.tryFlush (failingAt .walReset)).1 = .error (.io "no space") := by
    decide +kernel
  have hresult : oneRow.tryFlush (failingAt .walReset) =
      (.error (.io "no space"), (oneRow.tryFlush (failingAt .walReset)).2) :=
    Prod.ext hfails rfl
  refine ⟨_, hresult, ?_⟩
  have hreads := failed_flush_reads run_oneRow (by decide) hresult
  exact hreads.2 (by decide) servable_oneRow

/-- A write that succeeded is no longer read when the SST of the next flush
cannot be written. -/
theorem failed_flush_loses_row :
    ∃ st, run faultyStep initial
        [.table (.call (.write oneWrite.txId oneWrite.mutations))] = some st ∧
      (st.tryFlush (failingAt .sstWrite)).1 = .error (.io "no space") ∧
      (st.engine.get [107] 1).1 = some [1] ∧
      ((st.tryFlush (failingAt .sstWrite)).2.engine.get [107] 1).1 = none :=
  ⟨oneRow, run_oneRow, by decide, by decide, by decide⟩

end LoggedEngine

end HatP
