import HatP.Tx.CommitOnce

/-!
# Retrying a failed commit

A commit that fails for another reason than a conflict leaves the transaction
active, with the sets it had.  The copy that the failed call returns shares the id,
and dropping it aborts the id for the original too.
-/

namespace HatP

open Transition
open Std (ExtTreeMap ExtTreeSet LawfulEqCmp)

inductive CopyFate
  | kept
  | dropped
deriving DecidableEq

def CopyFate.settle (fate : CopyFate) (t : Transaction) (db : Database) : Database :=
  let (copy, db) := t.cloneForRetry db
  match fate with
  | .kept => db
  | .dropped => copy.drop db

def DatabaseError.IsConflict : DatabaseError → Prop
  | .ssiConflict _ _ | .ssiReadWriteConflict _ _ => True
  | .engine _ | .readOnlyCommit => False

/-- The transaction is as active in `db'` as it was in `db`, and what becomes of its
next commit is up to validation. -/
structure Transaction.Retryable (t : Transaction) (id : ℕ) (db db' : Database) : Prop where
  active : db'.manager.stateOf id = some .active
  context : db'.manager.getSsiTxn id = db.manager.getSsiTxn id
  decided : ∀ env, t.mutations ≠ [] → env.throttled = false → env.wal = .ok () →
    ((t.tryCommit db' env).1.isOk = true ↔ db'.manager.Admits ⟨id, t.mutations⟩)

/-! ## Commits that fail -/

theorem TxManager.onPreCommit_error {m m' : TxManager} {req : WriteCall}
    {err : EngineError} (h : m.onPreCommit req = (.error err, m')) :
    (Transaction.mapCommitError err).IsConflict := by
  rw [onPreCommit] at h
  split at h
  next =>
    cases h
    trivial
  next =>
    split at h
    next => cases h
    next hcontext =>
      obtain ⟨txn, htxn⟩ := Option.ne_none_iff_exists'.mp (by simpa using hcontext)
      by_cases hpasses : m.Passes txn req.keys
      · rw [recordWriteAndValidate_of_passes htxn hpasses] at h
        cases h
      · obtain ⟨conflict, hconflict, hresult⟩ := recordWriteAndValidate_of_not_passes htxn hpasses
        rw [hresult] at h
        cases conflict with
        | writeConflict txn key | readWriteConflict txn key =>
          cases h
          trivial
        | invalidState | unknownTxn => exact hconflict.elim

namespace Database

variable {db : Database} {mutations : List Mutation}

theorem commitSingle_fails (db : Database) {req : WriteCall} {wal : Except String Unit}
    {err : EngineError} (hcovered : db.manager.Covers req)
    (h : (db.commitSingle req wal).1 = .error err)
    (hother : ¬(Transaction.mapCommitError err).IsConflict) :
    (db.commitSingle req wal).2.manager = db.manager := by
  rw [commitSingle] at h ⊢
  by_cases hadmits : db.manager.Admits req
  · rw [TxManager.onPreCommit_of_admits hadmits, TxManager.recorded_of_covers hcovered] at h ⊢
    cases wal with
    | error text => rfl
    | ok u => cases h
  · obtain ⟨conflict, hresult⟩ := TxManager.onPreCommit_of_not_admits hadmits
    rw [hresult] at h
    cases h
    exact absurd (TxManager.onPreCommit_error hresult) hother

theorem writeWithTx_fails {txId : ℕ} {env : CommitEnv} {err : EngineError}
    (hcovered : db.manager.Covers ⟨txId, mutations⟩)
    (h : (db.writeWithTx txId mutations env).1 = .error err)
    (hother : ¬(Transaction.mapCommitError err).IsConflict) :
    (db.writeWithTx txId mutations env).2.manager = db.manager := by
  rw [writeWithTx] at h ⊢
  split
  · rfl
  split
  · rfl
  next hempty hzero =>
    rw [if_neg hempty, if_neg hzero] at h
    dsimp only at h ⊢
    split
    · rfl
    next hthrottled =>
      rw [if_neg hthrottled] at h
      exact commitSingle_fails { db with nextTxId := max db.nextTxId (min (txId + 1) maxU64) }
        hcovered h hother

theorem isOk_writeWithTx {txId : ℕ} {env : CommitEnv}
    (hmutations : mutations ≠ []) (hid : txId ≠ 0) (hthrottled : env.throttled = false)
    (hwal : env.wal = .ok ()) :
    (db.writeWithTx txId mutations env).1.isOk = true ↔ db.manager.Admits ⟨txId, mutations⟩ := by
  rw [writeWithTx, if_neg hmutations, if_neg hid]
  dsimp only
  rw [hthrottled, if_neg Bool.false_ne_true, commitSingle, hwal]
  dsimp only
  by_cases hadmits : db.manager.Admits ⟨txId, mutations⟩
  · rw [TxManager.onPreCommit_of_admits hadmits]
    exact iff_of_true rfl hadmits
  · obtain ⟨conflict, hresult⟩ := TxManager.onPreCommit_of_not_admits hadmits
    rw [hresult]
    exact iff_of_false Bool.false_ne_true hadmits

end Database

namespace Transaction

variable {db db' : Database} {t : Transaction} {env : CommitEnv} {id : ℕ}

section Commit

variable (hid : t.reservedTxId = some id)

include hid

theorem tryCommit_fails {err : DatabaseError} (hcovered : db.manager.Covers ⟨id, t.mutations⟩)
    (h : t.tryCommit db env = (.error err, db')) (hother : ¬err.IsConflict) :
    db'.manager = db.manager := by
  rw [tryCommit] at h
  split at h
  · cases h
    rfl
  simp only [hid] at h
  split at h
  next => cases h
  next engineErr hresult =>
    obtain ⟨herr, rfl⟩ := Prod.mk.inj h
    obtain rfl := Except.error.inj herr
    exact Database.writeWithTx_fails hcovered hresult hother

theorem isOk_tryCommit (hmutations : t.mutations ≠ []) (hzero : id ≠ 0)
    (hthrottled : env.throttled = false) (hwal : env.wal = .ok ()) :
    (t.tryCommit db env).1.isOk = true ↔ db.manager.Admits ⟨id, t.mutations⟩ := by
  rw [← Database.isOk_writeWithTx hmutations hzero hthrottled hwal, tryCommit, if_neg hmutations]
  simp only [hid]
  split
  next commitTs hresult => rw [hresult]; rfl
  next err hresult => rw [hresult]; rfl

end Commit

end Transaction

/-! ## Sessions -/

namespace Session

variable {s : Session}

theorem recorded_of_run {ops : List TxnOp}
    (hids : StepsMeet step (fun s _ ↦ s.IdsLeft) initial ops)
    (hrun : run step initial ops = some s) : s.Recorded :=
  hids.run_invariant (I := Recorded) (fun _ _ _ h hids hstep ↦ (h.step hids hstep).1)
    recorded_initial hrun

/-- After a failure other than a conflict the transaction can be retried exactly as
long as the returned copy is not dropped. -/
theorem retryable_iff_kept {ops : List TxnOp}
    (hids : StepsMeet step (fun s _ ↦ s.IdsLeft) initial ops)
    (hrun : run step initial ops = some s) {index id : ℕ} {t : Transaction}
    (ht : s.txn index = some t) (hid : t.reservedTxId = some id)
    (hactive : s.db.manager.stateOf id = some .active) {env : CommitEnv} {err : DatabaseError} {db' : Database}
    (hfails : t.tryCommit s.db env = (.error err, db')) (hother : ¬err.IsConflict)
    (fate : CopyFate) :
    t.Retryable id s.db (fate.settle t db') ↔ fate = .kept := by
  obtain ⟨-, hzero, -, hcovered⟩ :=
    (recorded_of_run hids hrun).reserved t (mem_txns_of_txn ht) id hid
  have hmanager := Transaction.tryCommit_fails hid hcovered hfails hother
  cases fate with
  | kept =>
    have hsame : (CopyFate.kept.settle t db').manager = s.db.manager := hmanager
    refine iff_of_true ⟨?_, ?_, fun env hmutations hthrottled hwal ↦ ?_⟩ rfl
    · rw [hsame, hactive]
    · rw [hsame]
    · exact Transaction.isOk_tryCommit hid hmutations hzero hthrottled hwal
  | dropped =>
    refine iff_of_false (fun hretryable ↦ ?_) (by decide)
    have haborted : (CopyFate.dropped.settle t db').manager.stateOf id = some .aborted := by
      obtain ⟨handle, hhandle, hstate⟩ := Option.map_eq_some_iff.mp hactive
      change (t.drop (t.cloneForRetry db').2).manager.stateOf id = some .aborted
      simp [Transaction.drop, hid, Transaction.cloneForRetry, hmanager, TxManager.abort,
        hhandle, hstate, hactive]
    exact absurd (hretryable.active.symm.trans haborted) (by decide)

def diskFull : List TxnOp := [.beginSsi, .get 0 [108], .put 0 [107] [1]]

theorem retryable_iff_kept_diskFull :
    ∃ s t db', run step initial diskFull = some s ∧ s.txn 0 = some t ∧
      t.tryCommit s.db ⟨false, .error "disk full"⟩ = (.error (.engine (.io "disk full")), db') ∧
      t.Retryable 1 s.db (CopyFate.kept.settle t db') := by
  have hkept : ∀ {s t db'}, run step initial diskFull = some s → s.txn 0 = some t →
      t.reservedTxId = some 1 → s.db.manager.stateOf 1 = some .active →
      t.tryCommit s.db ⟨false, .error "disk full"⟩ = (.error (.engine (.io "disk full")), db') →
      t.Retryable 1 s.db (CopyFate.kept.settle t db') :=
    fun hrun ht hid hactive hfails ↦
      (retryable_iff_kept (by decide) hrun ht hid hactive hfails not_false .kept).mpr rfl
  exact ⟨_, _, _, rfl, rfl, rfl, hkept rfl rfl rfl (by decide) rfl⟩

/-- The copy of a throttled commit is dropped, and the retry of the original is
refused as if there had been a conflict. -/
theorem dropped_copy_aborts :
    ∃ s, run step initial
        [.beginSsi, .put 0 [107] [1], .tryCommit 0 ⟨true, .ok ()⟩, .drop 1] = some s ∧
      s.db.manager.stateOf 1 = some .aborted ∧ (s.db.manager.getSsiTxn 1).isNone = true ∧
      ∃ t, s.txn 0 = some t ∧ (t.tryCommit s.db ⟨false, .ok ()⟩).1 = .error (.ssiConflict 1 []) :=
  ⟨_, rfl, by decide, by decide, _, rfl, by decide⟩

end Session

end HatP
