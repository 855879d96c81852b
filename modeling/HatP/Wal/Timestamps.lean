import HatP.Wal.Restart

/-!
# Timestamps across a restart

Replay numbers the commits of the log from the highest timestamp in the files
on.  These are the timestamps that the commits were given exactly when none of
them has reached a file: a flush that keeps the log moves every commit of the
log to a new timestamp at the next restart.
-/

namespace HatP

open Transition

def stampFrom : ℕ → List PendingWrite → List Commit
  | _, [] => []
  | first, w :: writes => ⟨w.txId, first, w.mutations⟩ :: stampFrom (first + 1) writes

variable {writes : List PendingWrite}

theorem stampFrom_concat (first : ℕ) (writes : List PendingWrite) (w : PendingWrite) :
    stampFrom first (writes ++ [w]) =
      stampFrom first writes ++ [⟨w.txId, first + writes.length, w.mutations⟩] := by
  induction writes generalizing first with
  | nil => rfl
  | cons v writes ih =>
    rw [List.cons_append, stampFrom, ih, stampFrom, List.length_cons, List.cons_append,
      Nat.add_right_comm, Nat.add_assoc]

theorem mem_map_stampFrom {first ts : ℕ} :
    (∃ c ∈ stampFrom first writes, c.commitTs = ts) ↔ first ≤ ts ∧ ts < first + writes.length := by
  induction writes generalizing first with
  | nil =>
    simp only [stampFrom, List.not_mem_nil, false_and, exists_false, List.length_nil, false_iff]
    omega
  | cons w writes ih =>
    simp only [stampFrom, List.exists_mem_cons_iff, ih, List.length_cons]
    omega

theorem exists_mem_stampFrom (first : ℕ) {w : PendingWrite}
    (hw : w ∈ writes) : ∃ ts, ⟨w.txId, ts, w.mutations⟩ ∈ stampFrom first writes := by
  induction writes generalizing first with
  | nil => cases hw
  | cons v writes ih =>
    rcases List.mem_cons.mp hw with rfl | hw
    · exact ⟨first, .head _⟩
    · obtain ⟨ts, hts⟩ := ih (first + 1) hw
      exact ⟨ts, .tail _ hts⟩

def installed (table : MemTable) (commits : List Commit) : MemTable :=
  commits.foldl (fun table c ↦ table.applyMutationsBatch c.txId c.mutations c.commitTs) table

theorem Engine.memtable_afterCommits (e : Engine) (writes : List PendingWrite) :
    (e.afterCommits writes).memtable =
      HatP.installed e.memtable (stampFrom e.commitSeq writes) := by
  induction writes generalizing e with
  | nil => rfl
  | cons w writes ih => exact ih (e.committed w.txId w.mutations)

theorem Engine.commitSeq_afterCommits (e : Engine) (writes : List PendingWrite) :
    (e.afterCommits writes).commitSeq = e.commitSeq + writes.length := by
  induction writes generalizing e with
  | nil => rfl
  | cons w writes ih =>
    refine (ih (e.committed w.txId w.mutations)).trans ?_
    change e.commitSeq + 1 + writes.length = _
    rw [List.length_cons]
    omega

theorem Engine.Inv.liveStamps_flush {e : Engine} (h : e.Inv) (env : SstEnv)
    (hne : e.memtable.drainInto ≠ []) (key : Bytes) :
    (e.flush env).liveStamps key = e.heldStamps key := by
  rw [← heldStamps_flush h.versionSet env, heldStamps, chain_flush hne]
  simp [VersionChain.empty]

theorem Engine.Inv.sstMaxCommit_le_flush {e : Engine} (h : e.Inv) (env : SstEnv)
    (hne : e.memtable.drainInto ≠ []) : e.sstMaxCommit ≤ (e.flush env).sstMaxCommit := by
  rcases Nat.eq_zero_or_pos e.sstMaxCommit with hzero | hpos
  · rw [hzero]
    exact Nat.zero_le _
  · obtain ⟨i, hlive, row, hrow, hts⟩ := exists_row_sstMaxCommit hpos
    have hheld : row.version.stamp ∈ (e.flush env).liveStamps row.key := by
      rw [h.liveStamps_flush env hne]
      exact .inr ⟨row.version, ⟨i, hlive, mem_versionsOf.mpr hrow⟩, rfl⟩
    exact hts ▸ le_sstMaxCommit hheld

/-! ## Histories of writes and flushes -/

inductive HistoryOp
  | write (txId : ℕ) (mutations : List Mutation)
  | flush (env : SstEnv) (walMaxSizeBytes : ℕ)

/-- An engine, and the commits that are in its log with the timestamps that the
writes returned. -/
structure History where
  store : LoggedEngine
  logged : List Commit

namespace History

def initial : History := ⟨.initial, []⟩

def step (h : History) : HistoryOp → Option History
  | .write txId mutations =>
    match h.store.writeWithTx txId mutations with
    | .ok (commitTs, store) => some ⟨store, h.logged ++ [⟨txId, commitTs, mutations⟩]⟩
    | .error _ => some h
  | .flush env walMaxSizeBytes =>
    some ⟨h.store.flush env walMaxSizeBytes,
      if h.store.ResetsLog walMaxSizeBytes then [] else h.logged⟩

/-- A restart installs exactly the commits of the log, under the timestamps
that they were given, and leaves the snapshot where it was. -/
def StableTimestamps (h : History) : Prop :=
  ∃ st, h.store.reopen = .ok st ∧ st.engine.memtable = installed ∅ h.logged ∧
    st.engine.snapshotTs = h.store.engine.snapshotTs

def Unflushed (h : History) : Prop :=
  ∀ c ∈ h.logged, ∀ i, h.store.engine.IsLive i → ∀ row ∈ h.store.engine.rowsOf i,
    row.version.beginTs ≠ c.commitTs

instance (h : History) : Decidable h.Unflushed :=
  decidable_of_iff (∀ c ∈ h.logged, ∀ i ∈ h.store.engine.liveFiles,
    ∀ row ∈ h.store.engine.rowsOf i, row.version.beginTs ≠ c.commitTs) (by
      simp only [Unflushed, Engine.mem_liveFiles])

/-- The log holds consecutive commits up to the last one; everything before
them is in the files, and so is the last one unless it is in the memtable. -/
structure Inv (h : History) : Prop where
  engine : h.store.engine.Inv
  log : ∃ first writes, 0 < first ∧ h.store.wal = writes.flatMap PendingWrite.bytes ∧
    (∀ w ∈ writes, Wal.encodeMutations w.txId w.mutations = .ok w.bytes) ∧
    h.logged = stampFrom first writes ∧ first + writes.length = h.store.engine.commitSeq ∧
    first ≤ h.store.engine.sstMaxCommit + 1
  last : h.store.engine.commitSeq ≤ h.store.engine.sstMaxCommit + 1 ∨
    ∃ key, ∃ p ∈ stamps (h.store.engine.memtable.chain key).versions,
      p.1 + 1 = h.store.engine.commitSeq

variable {h : History} {writes : List PendingWrite}

theorem inv_initial : Inv initial where
  engine := Engine.inv_initial
  log := ⟨1, [], Nat.one_pos, rfl, fun _ hw ↦ (by cases hw), rfl, rfl,
    Nat.le_add_left 1 _⟩
  last := .inl (Nat.le_add_left 1 _)

theorem Inv.write (hinv : Inv h) {w : PendingWrite}
    (hencode : Wal.encodeMutations w.txId w.mutations = .ok w.bytes) :
    Inv ⟨⟨h.store.engine.committed w.txId w.mutations, h.store.wal ++ w.bytes⟩,
      h.logged ++ [⟨w.txId, h.store.engine.commitSeq, w.mutations⟩]⟩ := by
  obtain ⟨first, writes, hpos, hwal, hall, hlogged, hseq, hfiles⟩ := hinv.log
  refine ⟨hinv.engine.committed, ⟨first, writes ++ [w], hpos, ?_, ?_, ?_, ?_, hfiles⟩, .inr ?_⟩
  · rw [hwal, List.flatMap_append, List.flatMap_singleton]
  · intro v hv
    rcases List.mem_append.mp hv with hv | hv
    · exact hall v hv
    · exact List.mem_singleton.mp hv ▸ hencode
  · rw [stampFrom_concat, hlogged, hseq]
  · rw [List.length_append, List.length_singleton, ← Nat.add_assoc, hseq]
    rfl
  · obtain ⟨m, rest, hms⟩ := List.exists_cons_of_ne_nil w.nonempty
    obtain ⟨value, hvalue⟩ := exists_netEffect (hms ▸ List.mem_cons_self) rfl
    refine ⟨m.key, (h.store.engine.commitSeq, value), ?_, rfl⟩
    exact (MemTable.mem_stamps_applyMutationsBatch _ _ _ _ _ _).mpr (.inl ⟨rfl, hvalue⟩)

theorem Inv.flush (hinv : Inv h) (env : SstEnv) (walMaxSizeBytes : ℕ) :
    Inv ⟨h.store.flush env walMaxSizeBytes,
      if h.store.ResetsLog walMaxSizeBytes then [] else h.logged⟩ := by
  by_cases hne : h.store.engine.memtable.drainInto = []
  · have hkept : ¬h.store.ResetsLog walMaxSizeBytes := fun hreset ↦ hreset.1 hne
    rw [LoggedEngine.flush, if_neg hkept, if_neg hkept, Engine.flush_of_nil hne]
    exact hinv
  obtain ⟨first, writes, hpos, hwal, hall, hlogged, hseq, hfiles⟩ := hinv.log
  have hseqFlush : (h.store.engine.flush env).commitSeq = h.store.engine.commitSeq :=
    Engine.commitSeq_flush hne
  have hle := hinv.engine.sstMaxCommit_le_flush env hne
  -- the rows of the memtable are in the new file
  have hlast : h.store.engine.commitSeq ≤ (h.store.engine.flush env).sstMaxCommit + 1 := by
    rcases hinv.last with hlast | ⟨key, p, hp, hts⟩
    · omega
    · have hheld : p ∈ (h.store.engine.flush env).liveStamps key := by
        rw [hinv.engine.liveStamps_flush env hne]
        exact .inl hp
      have hmax := Engine.le_sstMaxCommit hheld
      omega
  refine ⟨hinv.engine.flush env, ?_, .inl (hseqFlush.trans_le hlast)⟩
  by_cases hreset : h.store.ResetsLog walMaxSizeBytes
  · refine ⟨h.store.engine.commitSeq, [], by omega, if_pos hreset,
      fun _ hw ↦ (by cases hw), if_pos hreset, hseqFlush.symm, hlast⟩
  · exact ⟨first, writes, hpos, (if_neg hreset).trans hwal, hall, (if_neg hreset).trans hlogged,
      hseq.trans hseqFlush.symm, hfiles.trans (Nat.succ_le_succ hle)⟩

theorem Inv.step (hinv : Inv h) {op : HistoryOp} {h' : History} (hstep : h.step op = some h') :
    Inv h' := by
  cases op with
  | write txId mutations =>
    rcases h.store.writeWithTx_cases txId mutations with
      ⟨err, herr⟩ | ⟨w, rfl, rfl, hencode, hok⟩
    · rw [History.step, herr] at hstep
      cases hstep
      exact hinv
    · rw [History.step, hok] at hstep
      cases hstep
      exact hinv.write hencode
  | flush env walMaxSizeBytes =>
    cases hstep
    exact hinv.flush env walMaxSizeBytes

theorem inv_of_run {ops : List HistoryOp} (hrun : run step initial ops = some h) : Inv h :=
  StepsMeet.run_invariant (fun _ _ _ hinv _ hstep ↦ hinv.step hstep)
    (stepsMeet_true initial ops) inv_initial hrun

/-! ## When the timestamps are stable -/

def Representable (c : Commit) : Prop :=
  c.txId < 2 ^ 64 ∧ ∀ m ∈ c.mutations, m.Representable

theorem unflushed_iff {first : ℕ} (hinv : Inv h) (hpos : 0 < first)
    (hlogged : h.logged = stampFrom first writes)
    (hseq : first + writes.length = h.store.engine.commitSeq)
    (hfiles : first ≤ h.store.engine.sstMaxCommit + 1) :
    h.Unflushed ↔ first = h.store.engine.sstMaxCommit + 1 := by
  constructor
  · intro hunflushed
    by_contra hne
    have hmax : first ≤ h.store.engine.sstMaxCommit := by omega
    have hlt := hinv.engine.sstMaxCommit_lt (by omega)
    obtain ⟨c, hc, hts⟩ := mem_map_stampFrom.mpr ⟨hmax, hseq ▸ hlt⟩
    obtain ⟨i, hlive, row, hrow, hbegin⟩ :=
      Engine.exists_row_sstMaxCommit (hpos.trans_le hmax)
    exact hunflushed c (hlogged ▸ hc) i hlive row hrow (hbegin.trans hts.symm)
  · intro hfirst c hc i hlive row hrow heq
    have hle : row.version.beginTs ≤ h.store.engine.sstMaxCommit :=
      Engine.le_sstMaxCommit ⟨row.version, ⟨i, hlive, mem_versionsOf.mpr hrow⟩, rfl⟩
    have hge := (mem_map_stampFrom.mp ⟨c, hlogged ▸ hc, rfl⟩).1
    omega

theorem stableTimestamps_iff_first {first : ℕ}
    (hwal : h.store.wal = writes.flatMap PendingWrite.bytes) (hrange : ∀ w ∈ writes, w.InRange)
    (hpos : 0 < first) (hlogged : h.logged = stampFrom first writes)
    (hseq : first + writes.length = h.store.engine.commitSeq) :
    h.StableTimestamps ↔ first = h.store.engine.sstMaxCommit + 1 := by
  have hreopen := LoggedEngine.reopen_eq hwal hrange
  have hmemtable := h.store.engine.restarted.memtable_afterCommits writes
  have hnext := h.store.engine.restarted.commitSeq_afterCommits writes
  have hstart : h.store.engine.restarted.commitSeq = h.store.engine.sstMaxCommit + 1 := rfl
  constructor
  · rintro ⟨st, hst, -, hsnapshot⟩
    rw [hreopen] at hst
    cases hst
    simp only [Engine.snapshotTs, hnext, hstart, ← hseq] at hsnapshot
    omega
  · intro hfirst
    refine ⟨_, hreopen, ?_, ?_⟩
    · rw [hlogged, hfirst]
      exact hmemtable
    · simp only [Engine.snapshotTs, hnext, hstart, ← hseq, hfirst]

/-- After a history of writes and flushes a restart keeps the timestamps exactly
when no commit of the log has been flushed. -/
theorem stableTimestamps_iff (ops : List HistoryOp) (h : History)
    (hrun : run step initial ops = some h)
    (hrange : ∀ c ∈ h.logged, Representable c) :
    h.StableTimestamps ↔ h.Unflushed := by
  have hinv := inv_of_run hrun
  obtain ⟨first, writes, hpos, hwal, hall, hlogged, hseq, hfiles⟩ := hinv.log
  have hwrites : ∀ w ∈ writes, w.InRange := by
    intro w hw
    obtain ⟨ts, hmem⟩ := exists_mem_stampFrom first hw
    obtain ⟨htx, hlengths⟩ := hrange _ (hlogged ▸ hmem)
    exact PendingWrite.Representable.inRange ⟨htx, hlengths⟩
      (Wal.encodeRecords_eq_ok_iff.mp (hall w hw)).1
  rw [unflushed_iff hinv hpos hlogged hseq hfiles,
    stableTimestamps_iff_first hwal hwrites hpos hlogged hseq]

def resetHistory : List HistoryOp :=
  [.write 1 [.put [107] [1]], .flush Engine.plainEnv 0, .write 2 [.delete [107]]]

theorem stableTimestamps_iff_resetHistory :
    ∃ h, run step initial resetHistory = some h ∧
      (h.logged.map fun c ↦ c.commitTs) = [2] ∧ h.StableTimestamps := by
  refine ⟨_, rfl, by decide, (stableTimestamps_iff resetHistory _ rfl ?_).mpr (by decide)⟩
  intro c hc
  obtain rfl := List.mem_singleton.mp hc
  exact ⟨by decide, by decide⟩

def keptHistory : List HistoryOp :=
  [.write 1 [.put [107] [1]], .flush Engine.plainEnv 1000]

/-- The commit with timestamp 1 comes back with timestamp 2. -/
theorem timestamps_moved_by_restart :
    ∃ h st, run step initial keptHistory = some h ∧
      (h.logged.map fun c ↦ c.commitTs) = [1] ∧ h.store.engine.snapshotTs = 1 ∧
      h.store.reopen = .ok st ∧
      (st.engine.memtable.chain [107]).versions = [.live [1] 2 1] ∧
      st.engine.snapshotTs = 2 ∧ ¬h.StableTimestamps := by
  let w : PendingWrite := ⟨1, [.put [107] [1]], by decide, List.cons_ne_nil _ _⟩
  have hrange : ∀ v ∈ [w], v.InRange := by
    intro v hv
    rw [List.mem_singleton.mp hv]
    exact ⟨by decide, by decide, by decide⟩
  have hmoved : ∀ (h : History) (st : LoggedEngine), h.store.reopen = .ok st →
      h.store.engine.snapshotTs = 1 → st.engine.snapshotTs = 2 → ¬h.StableTimestamps := by
    rintro h st hreopen hbefore hafter ⟨st', hst', -, hsame⟩
    rw [hreopen] at hst'
    cases hst'
    rw [hbefore, hafter] at hsame
    exact absurd hsame (by decide)
  have hreopen : ∀ h : History, h.store.wal = [w].flatMap PendingWrite.bytes →
      h.store.reopen = .ok ⟨h.store.engine.restarted.afterCommits [w], h.store.wal⟩ :=
    fun h hwal ↦ LoggedEngine.reopen_eq hwal hrange
  exact ⟨_, _, rfl, by decide, by decide, hreopen _ rfl, by decide, by decide,
    hmoved _ _ (hreopen _ rfl) (by decide) (by decide)⟩

end History

end HatP
