import HatP.Tx.Serializable

/-!
# The window of `begin_ssi`

`begin_ssi` fixes the snapshot of a transaction before it registers the
transaction, and the history is pruned by the oldest registered snapshot only.
A commit that falls into the window is therefore kept only while another
registered transaction is at least as old.
-/

namespace HatP

open Transition

namespace SsiSystem

/-- A commit that the snapshot of a registered transaction does not contain
makes the validation of the transaction fail when the two touch one key. -/
def ConflictsRejected (s : SsiSystem) : Prop :=
  ∀ id txn, s.manager.getSsiTxn id = some txn →
    ∀ done ∈ s.committed, txn.startTs < done.commitTs →
      ∀ keys, ¬(txn.recordWrites keys).Untouched done.txn.writeSet →
        ∃ err, (s.manager.recordWriteAndValidate id keys).1 = .error err

theorem HistoryComplete.conflictsRejected {s : SsiSystem} (h : s.HistoryComplete) :
    s.ConflictsRejected := by
  intro id txn htxn done hdone hlt keys htouched
  have hfails : ¬s.manager.Passes txn keys := by
    intro hpasses
    have hentry := h id txn htxn done hdone hlt
    exact htouched (hpasses.1 done.entry (List.mem_append_left _ hentry) hlt)
  obtain ⟨err, -, hresult⟩ := TxManager.recordWriteAndValidate_of_not_passes htxn hfails
  exact ⟨err, by rw [hresult]⟩

/-- A begin in three steps is safe while every commit inside its window leaves
an older transaction registered. -/
theorem conflictsRejected_along (ops : List SsiOp)
    (hmeet : StepsMeet step WindowProtected initial ops) :
    Along step (fun s ↦ s.HistoryComplete ∧ s.ConflictsRejected) initial ops := by
  refine hmeet.along (I := Inv) ?_ ?_ inv_initial
  · intro s op t hinv hwindow hstep
    exact hinv.step hwindow hstep
  · intro s hinv
    exact ⟨hinv.active, hinv.active.conflictsRejected⟩

/-- Transaction 9 commits between the snapshot and the registration of
transaction 1, while transaction 8 is as old as the snapshot. -/
def guardedWindow : List SsiOp :=
  [.beginSsi 8, .beginRead, .beginSsi 9, .commit 9 [[107]] 1, .reserveTxId 0, .register 0,
    .recordRead 1 [107]]

theorem conflictsRejected_along_guardedWindow :
    Along step (fun s ↦ s.HistoryComplete ∧ s.ConflictsRejected) initial
        guardedWindow ∧
      ∃ s, run step initial guardedWindow = some s ∧
        (s.manager.recordWriteAndValidate 1 [[108]]).1 = .error (.readWriteConflict 1 [107]) := by
  refine ⟨conflictsRejected_along guardedWindow ?_, _, rfl, rfl⟩
  iterate 3
    intro t ht
    cases ht
    refine ⟨trivial, ?_⟩
  intro t ht
  cases ht
  refine ⟨?_, ?_⟩
  · intro o ho
    obtain rfl := List.mem_singleton.mp ho
    exact ⟨8, _, by decide, rfl, le_rfl⟩
  · iterate 3
      intro t ht
      cases ht
      refine ⟨trivial, ?_⟩
    trivial

/-- The same commit with no older transaction registered. -/
def openWindow : List SsiOp :=
  [.beginRead, .beginSsi 9, .commit 9 [[107]] 1, .reserveTxId 0, .register 0, .recordRead 1 [107]]

/-- The commit in the window leaves the history at once, and the transaction
that read the old value of its key commits. -/
theorem commit_in_openWindow_missed :
    ∃ s, run step initial openWindow = some s ∧
      (s.committed.map fun done ↦ (done.txn.writeSet.toList, done.commitTs)) = [([[107]], 1)] ∧
      (s.manager.getSsiTxn 1).map SsiTxn.startTs = some 0 ∧
      s.manager.commitHistory.length = 0 ∧
      (s.manager.recordWriteAndValidate 1 [[108]]).1 = .ok () ∧
      ¬(s.HistoryComplete ∧ s.ConflictsRejected) := by
  have hmissed : ∀ s : SsiSystem, s.manager.commitHistory.length = 0 →
      (s.committed.map CommittedTxn.commitTs) = [1] →
      (s.manager.getSsiTxn 1).map SsiTxn.startTs = some 0 → ¬s.HistoryComplete := by
    intro s hhistory hcommitted hcontext hcomplete
    obtain ⟨txn, htxn, hstart⟩ := Option.map_eq_some_iff.mp hcontext
    obtain ⟨done, hdone, hts⟩ := List.mem_map.mp
      (show 1 ∈ s.committed.map CommittedTxn.commitTs by simp [hcommitted])
    have hentry := hcomplete 1 txn htxn done hdone (by omega)
    rw [List.length_eq_zero_iff.mp hhistory] at hentry
    cases hentry
  exact ⟨_, rfl, by decide, by decide, by decide, rfl,
    fun h ↦ hmissed _ (by decide) (by decide) (by decide) h.1⟩

end SsiSystem

end HatP
