import HatP.Concurrent.Protocol

/-!
# Truncating the log beside commits and flushes

The flush that holds the compaction guard truncates the WAL without the write
guard.  The frames it removes may belong to commits that came after its drain,
or to rows that another flush has drained and not registered.
-/

namespace HatP

open Transition

/-- The versions hold what the mutations leave for each key they write. -/
def HoldsEffect (versions : Bytes → List VersionedValue) (commitTs : ℕ)
    (mutations : List Mutation) : Prop :=
  ∀ key value, netEffect mutations key = some value → (commitTs, value) ∈ stamps (versions key)

def MemTable.versions (table : MemTable) (key : Bytes) : List VersionedValue :=
  (table.chain key).versions

/-- The frames of the transactions that are in the WAL and not yet acknowledged. -/
def Writer.unfinished : Writer → List (List WalRecord)
  | .appending _ => []
  | .publishing queue => queue.map PendingWrite.frames
  | .installing commit _ queue => commit.frames :: queue.map PendingWrite.frames

/-- The rows of a flush that are in no registered file. -/
def FlushPhase.pending : FlushPhase → List (List VersionedRow)
  | .entered rows => [rows]
  | .written rows _ _ => [rows]
  | _ => []

/-! ## Effects in the memtable -/

variable {mutations : List Mutation} {table : MemTable} {commitTs : ℕ}

theorem HoldsEffect.install {txId ts : ℕ} {m : Mutation}
    (h : HoldsEffect table.versions commitTs mutations) (hne : commitTs ≠ ts) :
    HoldsEffect (table.applyMutation txId ts m).versions commitTs mutations :=
  fun key value hvalue ↦
    MemTable.mem_stamps_applyMutation.mpr (Or.inr ⟨fun _ ↦ hne, h key value hvalue⟩)

theorem HoldsEffect.concat {txId ts : ℕ} {done : List Mutation}
    (h : HoldsEffect table.versions ts done) (m : Mutation) :
    HoldsEffect (table.applyMutation txId ts m).versions ts (done ++ [m]) := by
  intro key value hvalue
  rw [netEffect_concat] at hvalue
  refine MemTable.mem_stamps_applyMutation.mpr ?_
  by_cases hkey : m.key = key
  · rw [if_pos hkey] at hvalue
    exact Or.inl ⟨hkey, by rw [Option.some.inj hvalue]⟩
  · rw [if_neg hkey] at hvalue
    exact Or.inr ⟨fun heq ↦ absurd heq hkey, h key value hvalue⟩

theorem HoldsEffect.drainInto (h : HoldsEffect table.versions commitTs mutations) :
    HoldsEffect (versionsOf table.drainInto) commitTs mutations := by
  intro key value hvalue
  rw [MemTable.versionsOf_drainInto]
  exact h key value hvalue

theorem HoldsEffect.eq_nil
    (h : HoldsEffect table.versions commitTs mutations) (hempty : table.drainInto = []) :
    mutations = [] := by
  by_contra hne
  obtain ⟨m, rest, rfl⟩ := List.exists_cons_of_ne_nil hne
  obtain ⟨value, hvalue⟩ := exists_netEffect (.head _) (rfl : m.key = m.key)
  obtain ⟨v, hv, -⟩ := h m.key value hvalue
  rw [MemTable.versions, (MemTable.drainInto_eq_nil_iff table).mp hempty] at hv
  exact List.not_mem_nil hv

/-! ## Durable states -/

namespace SharedEngine

variable {queue : List PendingWrite} {rows : List VersionedRow} {env : SstEnv} {fileId : ℕ}

/-- What a crash may leave of the WAL: all completed appends, and complete
frames of an append at work. -/
inductive CrashImage (st : SharedEngine) : List WalRecord → Prop
  | complete : CrashImage st st.wal
  | torn (batch : List PendingWrite) (n : ℕ) (hwriter : st.writer = some (.appending batch)) :
      CrashImage st (st.wal ++ (batch.flatMap PendingWrite.frames).take n)

/-- A file registered in the manifest holds the commit. -/
def Registered (st : SharedEngine) (commit : Commit) : Prop :=
  ∃ i, st.engine.IsLive i ∧
    HoldsEffect (versionsOf (st.engine.rowsOf i)) commit.commitTs commit.mutations

/-- After a crash each acknowledged commit is whole in the WAL or in a
registered file. -/
def Durable (st : SharedEngine) : Prop :=
  ∀ image, st.CrashImage image → ∀ commit ∈ st.acked,
    commit.frames <:+: image ∨ st.Registered commit

/-- The second clear finds the memtable empty, and the WAL is truncated only when
the memtable is empty, no other flush holds drained rows and no writer is
between its append and its last acknowledgement. -/
def TruncatesSafely (st : SharedEngine) : Action → Prop
  | .clearMemtable => st.engine.memtable.drainInto = []
  | .resetWal => st.engine.memtable.drainInto = [] ∧ st.drained = [] ∧
      ∀ writer ∈ st.writer, writer.unfinished = []
  | _ => True

/-! ## The invariant -/

def pendingRows (st : SharedEngine) : List (List VersionedRow) :=
  (st.flusher.map FlushPhase.pending).getD [] ++ st.drained

/-- Where an acknowledged commit is: in the memtable, with a flush or in a file. -/
def Located (st : SharedEngine) (commit : Commit) : Prop :=
  HoldsEffect st.engine.memtable.versions commit.commitTs commit.mutations ∨
    (∃ rows ∈ st.pendingRows, HoldsEffect (versionsOf rows) commit.commitTs commit.mutations) ∨
      st.Registered commit

structure Tracked (st : SharedEngine) (commit : Commit) : Prop where
  begun : commit.commitTs < st.engine.commitSeq
  nonempty : commit.mutations ≠ []
  located : st.Located commit
  logged : commit.frames <:+: st.wal ∨ st.Registered commit

/-- The commit at work is the newest one and the memtable holds what it has
installed so far. -/
structure Underway (st : SharedEngine) (commit : Commit) (todo : List Mutation) : Prop where
  begun : commit.commitTs < st.engine.commitSeq
  nonempty : commit.mutations ≠ []
  newest : ∀ other ∈ st.acked, other.commitTs < commit.commitTs
  partly : ∃ done, commit.mutations = done ++ todo ∧
    HoldsEffect st.engine.memtable.versions commit.commitTs done

def BatchLogged (st : SharedEngine) : Prop :=
  ∀ writer ∈ st.writer, ∀ frames ∈ writer.unfinished, frames <:+: st.wal

structure Recoverable (st : SharedEngine) : Prop where
  versionSet : st.engine.versionSet.WellFormed
  written : ∀ rows fileId env, st.flusher = some (.written rows fileId env) →
    fileId = st.engine.versionSet.nextFileId ∧ st.engine.rowsOf fileId = rows
  batch : st.BatchLogged
  underway : ∀ commit todo queue, st.writer = some (.installing commit todo queue) →
    st.Underway commit todo
  acked : ∀ commit ∈ st.acked, st.Tracked commit

variable {st st' : SharedEngine} {action : Action} {commit : Commit}

theorem durable_of_logged (h : ∀ commit ∈ st.acked, commit.frames <:+: st.wal ∨
    st.Registered commit) : st.Durable := by
  intro image himage commit hcommit
  refine (h commit hcommit).imp_left fun hinfix ↦ ?_
  cases himage with
  | complete => exact hinfix
  | torn batch n hwriter => exact hinfix.trans (List.prefix_append _ _).isInfix

theorem recoverable_initial (walMaxSizeBytes : ℕ) : (initial walMaxSizeBytes).Recoverable where
  versionSet := VersionSet.wellFormed_initial
  written rows fileId env hflusher := by simp [initial] at hflusher
  batch writer hwriter := by simp [initial] at hwriter
  underway commit todo queue hwriter := by simp [initial] at hwriter
  acked commit hcommit := by simp [initial] at hcommit

/-! ## The log -/

theorem Steps.mem_acked (hstep : st.Steps action st') (hcommit : commit ∈ st'.acked) :
    commit ∈ st.acked ∨
      ∃ queue, st.writer = some (.installing commit [] queue) ∧
        st' = st.acknowledge commit queue := by
  cases hstep with
  | acknowledge hwriter =>
    rcases List.mem_cons.mp hcommit with rfl | hcommit
    · exact Or.inr ⟨_, hwriter, rfl⟩
    · exact Or.inl hcommit
  | drain hwriter =>
    obtain ⟨memtable, drained, heq⟩ := st.drain_frame
    rw [heq] at hcommit
    exact Or.inl hcommit
  | _ => exact Or.inl hcommit

theorem Steps.wal_prefix (hstep : st.Steps action st') (hreset : action ≠ .resetWal) :
    st.wal <+: st'.wal := by
  cases hstep with
  | appendWal hwriter => exact List.prefix_append _ _
  | resetWal hflusher => exact absurd rfl hreset
  | drain hwriter =>
    obtain ⟨memtable, drained, heq⟩ := st.drain_frame
    rw [heq]
  | _ => exact List.prefix_rfl

theorem BatchLogged.steps (h : st.BatchLogged) (hstep : st.Steps action st')
    (hreset : action = .resetWal → ∀ writer ∈ st.writer, writer.unfinished = []) :
    st'.BatchLogged := by
  cases hstep with
  | lockWrite hwriter hbatch =>
    rintro writer ⟨⟩ frames hframes
    simp [Writer.unfinished] at hframes
  | appendWal hwriter =>
    rintro writer ⟨⟩ frames hframes
    exact (List.infix_of_mem_flatten hframes).trans (List.suffix_append _ _).isInfix
  | takeTimestamp hwriter | install hwriter =>
    rintro writer ⟨⟩ frames hframes
    exact h _ hwriter frames hframes
  | acknowledge hwriter =>
    rintro writer ⟨⟩ frames hframes
    exact h _ hwriter frames (.tail _ hframes)
  | unlockWrite hwriter =>
    rintro writer ⟨⟩
  | drain hwriter =>
    obtain ⟨memtable, drained, heq⟩ := st.drain_frame
    rw [heq]
    exact h
  | resetWal hflusher =>
    intro writer hwriter frames hframes
    simp [hreset rfl writer hwriter] at hframes
  | _ => exact h

theorem BatchLogged.frames_infix (h : st.BatchLogged) {todo : List Mutation}
    (hwriter : st.writer = some (.installing commit todo queue)) :
    commit.frames <:+: st.wal :=
  h _ hwriter _ (.head _)

/-- Everything acknowledged is in the WAL. -/
structure Logged (st : SharedEngine) : Prop where
  batch : st.BatchLogged
  acked : ∀ commit ∈ st.acked, commit.frames <:+: st.wal

theorem Logged.steps (h : st.Logged) (hstep : st.Steps action st')
    (hreset : action ≠ .resetWal) : st'.Logged := by
  refine ⟨h.batch.steps hstep fun heq ↦ absurd heq hreset, fun commit hcommit ↦ ?_⟩
  have hgrows := (hstep.wal_prefix hreset).isInfix
  rcases hstep.mem_acked hcommit with hold | ⟨queue, hwriter, -⟩
  · exact (h.acked commit hold).trans hgrows
  · exact (h.batch.frames_infix hwriter).trans hgrows

/-! ## The files -/

theorem mem_files_appendManifest
    {i l : ℕ} : i ∈ (st.appendManifest rows fileId env).engine.versionSet.files l ↔
      i ∈ st.engine.versionSet.files l ∨ l = 0 ∧ i = fileId :=
  VersionSet.mem_files_addFile st.engine.versionSet fileId 0 (handleMeta rows env) l i

theorem Recoverable.isLive_steps (h : st.Recoverable) (hstep : st.Steps action st') {i : ℕ}
    (hi : st.engine.IsLive i) :
    st'.engine.IsLive i ∧ st'.engine.rowsOf i = st.engine.rowsOf i := by
  obtain ⟨l, hl⟩ := hi
  cases hstep with
  | drain hwriter =>
    obtain ⟨memtable, drained, heq⟩ := st.drain_frame
    rw [heq]
    exact ⟨⟨l, hl⟩, rfl⟩
  | writeSst hflusher =>
    refine ⟨⟨l, hl⟩, Engine.rowsOf_eq_of_ssts ?_⟩
    have hne : st.engine.versionSet.nextFileId ≠ i := (h.versionSet.fresh hl).ne'
    simp [SharedEngine.writeSst, Std.ExtTreeMap.getElem?_insert, hne]
  | appendManifest hflusher => exact ⟨⟨l, mem_files_appendManifest.mpr (Or.inl hl)⟩, rfl⟩
  | _ => exact ⟨⟨l, hl⟩, rfl⟩

theorem Registered.steps (h : st.Registered commit) (hst : st.Recoverable)
    (hstep : st.Steps action st') : st'.Registered commit := by
  obtain ⟨i, hi, hholds⟩ := h
  obtain ⟨hlive, hrows⟩ := hst.isLive_steps hstep hi
  exact ⟨i, hlive, hrows.symm ▸ hholds⟩

theorem Steps.commitSeq_le (hstep : st.Steps action st') :
    st.engine.commitSeq ≤ st'.engine.commitSeq := by
  cases hstep with
  | takeTimestamp hwriter => exact Nat.le_succ _
  | drain hwriter =>
    obtain ⟨memtable, drained, heq⟩ := st.drain_frame
    rw [heq]
  | _ => exact le_rfl

/-! ## Steps -/

section

variable (h : st.Recoverable)

include h

theorem Recoverable.registered_appendManifest
    (hflusher : st.flusher = some (.written rows fileId env))
    (hholds : HoldsEffect (versionsOf rows) commit.commitTs commit.mutations) :
    (st.appendManifest rows fileId env).Registered commit := by
  obtain ⟨-, hrows⟩ := h.written rows fileId env hflusher
  refine ⟨fileId, ⟨0, mem_files_appendManifest.mpr (Or.inr ⟨rfl, rfl⟩)⟩, ?_⟩
  have hsame : (st.appendManifest rows fileId env).engine.rowsOf fileId = rows := hrows
  rwa [hsame]

theorem Recoverable.holds_memtable_steps (hstep : st.Steps action st')
    (hsafe : st.TruncatesSafely action) (hcommit : commit ∈ st.acked)
    (hholds : HoldsEffect st.engine.memtable.versions commit.commitTs commit.mutations) :
    st'.Located commit := by
  cases hstep with
  | install hwriter =>
    have hlt := (h.underway _ _ _ hwriter).newest commit hcommit
    exact Or.inl (hholds.install hlt.ne)
  | drain hwriter =>
    by_cases hempty : st.engine.memtable.drainInto = []
    · exact absurd (hholds.eq_nil hempty) (h.acked commit hcommit).nonempty
    · rw [drain_of_ne hempty]
      refine Or.inr (Or.inl ⟨st.engine.memtable.drainInto, ?_, hholds.drainInto⟩)
      simp [pendingRows]
  | clearMemtable hflusher =>
    exact absurd (hholds.eq_nil hsafe) (h.acked commit hcommit).nonempty
  | _ => exact Or.inl hholds

theorem Recoverable.holds_pending_steps (hstep : st.Steps action st')
    (hrows : rows ∈ st.pendingRows)
    (hholds : HoldsEffect (versionsOf rows) commit.commitTs commit.mutations) :
    st'.Located commit := by
  have hkept : rows ∈ st'.pendingRows → st'.Located commit :=
    fun hmem ↦ Or.inr (Or.inl ⟨rows, hmem, hholds⟩)
  cases hstep with
  | drain hwriter =>
    apply hkept
    by_cases hempty : st.engine.memtable.drainInto = []
    · rwa [drain_of_empty hempty]
    · rw [drain_of_ne hempty, pendingRows, ← List.append_assoc]
      exact List.mem_append_left _ hrows
  | @lockCompaction index drained hflusher hdrained =>
    apply hkept
    obtain ⟨hindex, rfl⟩ := List.getElem?_eq_some_iff.mp hdrained
    have hperm := (List.getElem_cons_eraseIdx_perm hindex).mem_iff (a := rows)
    simp only [pendingRows, hflusher, Option.map_none, Option.getD_none, List.nil_append] at hrows
    exact hperm.mpr hrows
  | writeSst hflusher =>
    apply hkept
    simpa [pendingRows, SharedEngine.writeSst, FlushPhase.pending, hflusher] using hrows
  | @appendManifest written fileId env hflusher =>
    simp only [pendingRows, hflusher, Option.map_some, Option.getD_some, FlushPhase.pending,
      List.mem_append, List.mem_singleton] at hrows
    rcases hrows with rfl | hdrained
    · exact Or.inr (Or.inr (h.registered_appendManifest hflusher hholds))
    · exact hkept (List.mem_append_right _ hdrained)
  | clearMemtable hflusher =>
    apply hkept
    simpa [pendingRows, SharedEngine.clearMemtable, FlushPhase.pending, hflusher] using hrows
  | checkWalSize hflusher =>
    apply hkept
    simp only [pendingRows, hflusher, Option.map_some, Option.getD_some, FlushPhase.pending,
      List.nil_append] at hrows
    exact List.mem_append_right _ hrows
  | resetWal hflusher =>
    apply hkept
    simpa [pendingRows, SharedEngine.resetWal, FlushPhase.pending, hflusher] using hrows
  | _ => exact hkept hrows

theorem Recoverable.located_steps (hstep : st.Steps action st')
    (hsafe : st.TruncatesSafely action) (hcommit : commit ∈ st.acked) : st'.Located commit := by
  rcases (h.acked commit hcommit).located with hholds | ⟨rows, hrows, hholds⟩ | hregistered
  · exact h.holds_memtable_steps hstep hsafe hcommit hholds
  · exact h.holds_pending_steps hstep hrows hholds
  · exact Or.inr (Or.inr (hregistered.steps h hstep))

end

/-- When the memtable is empty and no flush holds rows, every acknowledged commit
is in a registered file. -/
theorem Tracked.registered (h : st.Tracked commit) (hempty : st.engine.memtable.drainInto = [])
    (hpending : st.pendingRows = []) : st.Registered commit := by
  rcases h.located with hholds | ⟨rows, hrows, -⟩ | hregistered
  · exact absurd (hholds.eq_nil hempty) h.nonempty
  · simp [hpending] at hrows
  · exact hregistered

section

variable (h : st.Recoverable)

include h

theorem Recoverable.tracked_steps (hstep : st.Steps action st')
    (hsafe : st.TruncatesSafely action) (hcommit : commit ∈ st.acked) : st'.Tracked commit := by
  have htracked := h.acked commit hcommit
  refine ⟨htracked.begun.trans_le hstep.commitSeq_le, htracked.nonempty,
    h.located_steps hstep hsafe hcommit, ?_⟩
  by_cases hreset : action = .resetWal
  · subst hreset
    have hpending : st.pendingRows = [] := by
      cases hstep with
      | resetWal hflusher => simp [pendingRows, hflusher, FlushPhase.pending, hsafe.2.1]
    exact Or.inr ((htracked.registered hsafe.1 hpending).steps h hstep)
  · exact htracked.logged.imp (fun hinfix ↦ hinfix.trans (hstep.wal_prefix hreset).isInfix)
      fun hregistered ↦ hregistered.steps h hstep

theorem Recoverable.tracked_acknowledge (hwriter : st.writer = some (.installing commit [] queue)) :
    (st.acknowledge commit queue).Tracked commit := by
  have hunderway := h.underway commit [] queue hwriter
  obtain ⟨done, hdone, hholds⟩ := hunderway.partly
  obtain rfl : commit.mutations = done := by simpa using hdone
  exact ⟨hunderway.begun, hunderway.nonempty, Or.inl hholds, Or.inl (h.batch.frames_infix hwriter)⟩

theorem Recoverable.underway_steps (hstep : st.Steps action st')
    (hsafe : st.TruncatesSafely action) {todo : List Mutation}
    (hwriter' : st'.writer = some (.installing commit todo queue)) : st'.Underway commit todo := by
  cases hstep with
  | lockWrite hwriter hbatch | unlockWrite hwriter => simp at hwriter'
  | appendWal hwriter => simp [SharedEngine.appendWal] at hwriter'
  | @takeTimestamp w queue hwriter =>
    obtain ⟨rfl, rfl, rfl⟩ := Writer.installing.inj (Option.some.inj hwriter')
    exact ⟨Nat.lt_succ_self _, w.nonempty, fun other hother ↦ (h.acked other hother).begun, [],
      rfl, fun key value hvalue ↦ by simp at hvalue⟩
  | @install commit m todo queue hwriter =>
    obtain ⟨rfl, rfl, rfl⟩ := Writer.installing.inj (Option.some.inj hwriter')
    have hunderway := h.underway _ _ _ hwriter
    obtain ⟨done, hdone, hholds⟩ := hunderway.partly
    exact ⟨hunderway.begun, hunderway.nonempty, hunderway.newest, done ++ [m], by simp [hdone],
      hholds.concat m⟩
  | acknowledge hwriter => simp [SharedEngine.acknowledge] at hwriter'
  | drain hwriter =>
    obtain ⟨memtable, drained, heq⟩ := st.drain_frame
    simp [heq, hwriter] at hwriter'
  | clearMemtable hflusher =>
    have hunderway := h.underway commit todo queue hwriter'
    obtain ⟨done, hdone, hholds⟩ := hunderway.partly
    obtain rfl := hholds.eq_nil hsafe
    exact ⟨hunderway.begun, hunderway.nonempty, hunderway.newest, [], hdone,
      fun key value hvalue ↦ by simp at hvalue⟩
  | _ =>
    have hunderway := h.underway commit todo queue hwriter'
    exact ⟨hunderway.begun, hunderway.nonempty, hunderway.newest, hunderway.partly⟩

theorem Recoverable.wellFormed_steps (hstep : st.Steps action st') :
    st'.engine.versionSet.WellFormed := by
  cases hstep with
  | drain hwriter =>
    obtain ⟨memtable, drained, heq⟩ := st.drain_frame
    rw [heq]
    exact h.versionSet
  | @appendManifest rows fileId env hflusher =>
    obtain ⟨rfl, -⟩ := h.written rows fileId env hflusher
    exact (h.versionSet.addFile 0 _ fun l hl ↦ (h.versionSet.fresh hl).false).nextFileId _
  | _ => exact h.versionSet

theorem Recoverable.written_steps (hstep : st.Steps action st')
    (hflusher' : st'.flusher = some (.written rows fileId env)) :
    fileId = st'.engine.versionSet.nextFileId ∧ st'.engine.rowsOf fileId = rows := by
  cases hstep with
  | drain hwriter =>
    obtain ⟨memtable, drained, heq⟩ := st.drain_frame
    rw [heq] at hflusher' ⊢
    exact h.written rows fileId env hflusher'
  | lockCompaction hflusher hrows => simp at hflusher'
  | writeSst hflusher =>
    obtain ⟨rfl, rfl, rfl⟩ := FlushPhase.written.inj (Option.some.inj hflusher')
    simp [SharedEngine.writeSst, Engine.rowsOf, SstFile.write]
  | appendManifest hflusher => simp [SharedEngine.appendManifest] at hflusher'
  | clearMemtable hflusher => simp [SharedEngine.clearMemtable] at hflusher'
  | checkWalSize hflusher =>
    simp only [SharedEngine.checkWalSize] at hflusher'
    split_ifs at hflusher' with hlarge
    simp at hflusher'
  | resetWal hflusher => simp [SharedEngine.resetWal] at hflusher'
  | _ => exact h.written rows fileId env hflusher'

theorem Recoverable.steps (hstep : st.Steps action st')
    (hsafe : st.TruncatesSafely action) : st'.Recoverable where
  versionSet := h.wellFormed_steps hstep
  written rows fileId env hflusher := h.written_steps hstep hflusher
  batch := h.batch.steps hstep fun hreset ↦ by
    subst hreset
    exact hsafe.2.2
  underway commit todo queue hwriter := h.underway_steps hstep hsafe hwriter
  acked commit hcommit := by
    rcases hstep.mem_acked hcommit with hold | ⟨queue, hwriter, rfl⟩
    · exact h.tracked_steps hstep hsafe hold
    · exact h.tracked_acknowledge hwriter

end

/-! ## Runs -/

/-- From a freshly opened database, acknowledged commits are durable in every
state of a run that never truncates the WAL or truncates it safely. -/
theorem durable_along (walMaxSizeBytes : ℕ) (actions : List Action)
    (hsafe : .resetWal ∈ actions →
      StepsMeet step TruncatesSafely (initial walMaxSizeBytes) actions) :
    Along step Durable (initial walMaxSizeBytes) actions := by
  by_cases htruncates : .resetWal ∈ actions
  · apply StepsMeet.along _ _ (recoverable_initial walMaxSizeBytes) (hsafe htruncates)
    · exact fun s action t hinv hcond hstep ↦ hinv.steps (steps_of_step hstep) hcond
    · exact fun s hinv ↦ durable_of_logged fun commit hcommit ↦ (hinv.acked commit hcommit).logged
  · have hkeep : ∀ action ∈ actions, action ≠ .resetWal :=
      fun action hmem heq ↦ htruncates (heq ▸ hmem)
    have hstart : (initial walMaxSizeBytes).Logged :=
      ⟨(recoverable_initial walMaxSizeBytes).batch, by simp [initial]⟩
    apply StepsMeet.along _ _ hstart
      ((stepsMeet_true _ actions).and_of_forall_mem hkeep)
    · exact fun s action t hinv hcond hstep ↦ hinv.steps (steps_of_step hstep) hcond.2
    · exact fun s hinv ↦ durable_of_logged fun commit hcommit ↦ Or.inl (hinv.acked commit hcommit)

def flushAndTruncate : List Action :=
  commitSteps [1] ++ [.drain, .lockCompaction 0, .writeSst ⟨100, 0, none, true⟩, .appendManifest,
    .clearMemtable, .checkWalSize, .resetWal]

theorem durable_along_flushAndTruncate :
    Along step Durable (initial 0) flushAndTruncate ∧
      ∃ st, run step (initial 0) flushAndTruncate = some st ∧ st.wal = [] ∧
        st.acked.map Commit.commitTs = [1] := by
  refine ⟨durable_along 0 flushAndTruncate fun _ ↦ ?_, _, rfl, by decide, by decide⟩
  iterate 10
    rintro _ ⟨⟩
    refine ⟨trivial, ?_⟩
  rintro _ ⟨⟩
  have hempty : (∅ : MemTable).drainInto = [] := by decide
  refine ⟨hempty, ?_⟩
  rintro _ ⟨⟩
  refine ⟨trivial, ?_⟩
  rintro _ ⟨⟩
  refine ⟨⟨hempty, by decide, ?_⟩, trivial⟩
  rintro writer ⟨⟩

/-- A commit between the second clear of a flush and its truncation of the WAL. -/
def commitBeforeTruncate : List Action :=
  commitSteps [1] ++ [.drain, .lockCompaction 0, .writeSst ⟨100, 0, none, true⟩, .appendManifest,
    .clearMemtable] ++ commitSteps [2] ++ [.checkWalSize, .resetWal]

/-- The second commit is acknowledged; after the truncation it is in the memtable
only. -/
theorem truncate_loses_commit :
    ∃ st, run step (initial 60) commitBeforeTruncate = some st ∧
      st.acked.map Commit.commitTs = [2, 1] ∧ st.wal = [] ∧
      (st.engine.liveFiles.flatMap fun i ↦ (versionsOf (st.engine.rowsOf i) [107]).map
        VersionedValue.stamp) = [(1, some [1])] ∧
      ¬st.Durable := by
  have hlost : ∀ st : SharedEngine, ⟨1, 2, [.put [107] [2]]⟩ ∈ st.acked → st.wal = [] →
      (st.engine.liveFiles.flatMap fun i ↦ (versionsOf (st.engine.rowsOf i) [107]).map
        VersionedValue.stamp) = [(1, some [1])] → ¬st.Durable := by
    intro st hacked hwal hfiles hdurable
    rcases hdurable st.wal .complete _ hacked with hinfix | ⟨i, hi, hholds⟩
    · rw [hwal] at hinfix
      exact absurd (List.infix_nil.mp hinfix) (List.cons_ne_nil _ _)
    · obtain ⟨v, hv, hstamp⟩ := hholds [107] (some [2]) rfl
      have hmem : v.stamp ∈ st.engine.liveFiles.flatMap fun i ↦
          (versionsOf (st.engine.rowsOf i) [107]).map VersionedValue.stamp :=
        List.mem_flatMap.mpr ⟨i, Engine.mem_liveFiles.mpr hi, List.mem_map_of_mem hv⟩
      rw [hfiles, hstamp] at hmem
      simp at hmem
  exact ⟨_, rfl, by decide, by decide, by decide, hlost _ (.head _) (by rfl) (by decide)⟩

end SharedEngine

end HatP
