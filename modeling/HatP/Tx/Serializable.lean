import HatP.Lib.Run
import HatP.Tx.Manager

/-!
# Runs of SSI transactions

Transactions begin, record what they read and write, and end by an abort or by
a validation that is followed at once by the commit.  A begin is either one
step or the three steps of `Database::begin_ssi`, between which other
transactions may commit.  The committed transactions are kept as a ghost list
with the context they were validated with.
-/

namespace HatP

open Transition

/-- A `begin_ssi` that has taken its snapshot but is not registered yet. -/
inductive Opening
  | snapshot (startTs : ℕ)
  | reserved (startTs txId : ℕ)

def Opening.startTs : Opening → ℕ
  | .snapshot startTs => startTs
  | .reserved startTs _ => startTs

structure CommittedTxn where
  txn : SsiTxn
  commitTs : ℕ

def CommittedTxn.entry (done : CommittedTxn) : CommitEntry := ⟨done.txn.writeSet, done.commitTs⟩

structure SsiSystem where
  manager : TxManager
  lastCommitTs : ℕ
  nextTxId : ℕ
  opening : List Opening
  committed : List CommittedTxn

inductive SsiOp
  | beginSsi (id : ℕ)
  | beginRead
  | reserveTxId (index : ℕ)
  | register (index : ℕ)
  | recordRead (id : ℕ) (key : Bytes)
  | addReadConflictRange (id : ℕ) (lower upper : Bytes)
  | recordWrite (id : ℕ) (key : Bytes)
  | abort (id : ℕ)
  | commit (id : ℕ) (keys : List Bytes) (commitTs : ℕ)
  | autocommit (commitTs : ℕ)

namespace SsiSystem

variable {txn : SsiTxn} {id commitTs : ℕ}

def initial : SsiSystem := ⟨.initial, 0, 1, [], []⟩

def commit (s : SsiSystem) (id : ℕ) (keys : List Bytes) (commitTs : ℕ) : SsiSystem :=
  match s.manager.recordWriteAndValidate id keys with
  | (.error _, m) => { s with manager := m }
  | (.ok (), m) =>
    match m.getSsiTxn id, m.commitAt id commitTs with
    | some txn, (.ok _, m) =>
      { s with
        manager := m
        lastCommitTs := commitTs
        committed := s.committed ++ [⟨txn, commitTs⟩] }
    | _, (_, m) => { s with manager := m, lastCommitTs := commitTs }

def step (s : SsiSystem) : SsiOp → Option SsiSystem
  | .beginSsi id => some { s with manager := (s.manager.beginSsiWithId id s.lastCommitTs).2 }
  | .beginRead => some { s with opening := s.opening ++ [.snapshot s.lastCommitTs] }
  | .reserveTxId index =>
    match s.opening[index]? with
    | some (.snapshot startTs) =>
      some { s with
        nextTxId := s.nextTxId + 1
        opening := s.opening.set index (.reserved startTs s.nextTxId) }
    | _ => none
  | .register index =>
    match s.opening[index]? with
    | some (.reserved startTs txId) =>
      some { s with
        manager := (s.manager.beginSsiWithId txId startTs).2
        opening := s.opening.eraseIdx index }
    | _ => none
  | .recordRead id key =>
    some { s with manager := (s.manager.withSsiTxn id fun txn ↦ txn.recordRead key).2 }
  | .addReadConflictRange id lower upper =>
    some { s with
      manager := (s.manager.withSsiTxn id fun txn ↦ txn.addReadConflictRange lower upper).2 }
  | .recordWrite id key =>
    some { s with manager := (s.manager.withSsiTxn id fun txn ↦ txn.recordWrite key).2 }
  | .abort id => some { s with manager := (s.manager.abort id).2 }
  | .commit id keys commitTs =>
    if s.lastCommitTs < commitTs then some (s.commit id keys commitTs) else none
  | .autocommit commitTs =>
    if s.lastCommitTs < commitTs then some { s with lastCommitTs := commitTs } else none

/-- Every commit that a snapshot at `startTs` does not contain is in the
history. -/
def Covered (s : SsiSystem) (startTs : ℕ) : Prop :=
  ∀ done ∈ s.committed, startTs < done.commitTs → done.entry ∈ s.manager.commitHistory

def HistoryComplete (s : SsiSystem) : Prop :=
  ∀ id txn, s.manager.getSsiTxn id = some txn → s.Covered txn.startTs

/-- A transaction that committed between the snapshot and the commit of
another one wrote nothing that the other one wrote, read or scanned. -/
def Serializable (s : SsiSystem) : Prop :=
  ∀ t ∈ s.committed, ∀ u ∈ s.committed, t.txn.startTs < u.commitTs → u.commitTs < t.commitTs →
    (∀ key ∈ u.txn.writeSet, key ∉ t.txn.writeSet) ∧
    (∀ key ∈ u.txn.writeSet, key ∉ t.txn.readSet) ∧
    ∀ range ∈ t.txn.readConflictRanges, ∀ key ∈ u.txn.writeSet,
      ¬(range.1 ≤ key ∧ key < range.2)

structure Inv (s : SsiSystem) : Prop where
  issued : ∀ done ∈ s.committed, done.commitTs ≤ s.lastCommitTs
  active : s.HistoryComplete
  opening : ∀ o ∈ s.opening, s.Covered o.startTs
  serial : s.Serializable

/-! ## Steps that commit nothing -/

variable {s : SsiSystem}

theorem inv_initial : Inv initial where
  issued _ h := by cases h
  active _ _ h := by simp [initial] at h
  opening _ h := by cases h
  serial _ h := by cases h

section

variable (h : Inv s)

include h

theorem Inv.covered_lastCommitTs : s.Covered s.lastCommitTs :=
  fun done hdone hlt ↦ absurd (h.issued done hdone) (Nat.not_le.mpr hlt)

theorem Inv.of_manager {m : TxManager} (hhistory : m.commitHistory = s.manager.commitHistory)
    (hcontexts : ∀ id txn, m.getSsiTxn id = some txn → s.Covered txn.startTs) :
    Inv { s with manager := m } := by
  have hcovered : ∀ startTs, s.Covered startTs → Covered { s with manager := m } startTs := by
    intro startTs hold done hdone hlt
    rw [hhistory]
    exact hold done hdone hlt
  exact
    { issued := h.issued
      active := fun id txn htxn ↦ hcovered _ (hcontexts id txn htxn)
      opening := fun o ho ↦ hcovered _ (h.opening o ho)
      serial := h.serial }

theorem Inv.beginSsi (id : ℕ) {startTs : ℕ} (hstart : s.Covered startTs) :
    Inv { s with manager := (s.manager.beginSsiWithId id startTs).2 } := by
  refine h.of_manager rfl fun other txn htxn ↦ ?_
  rw [TxManager.getSsiTxn_beginSsiWithId] at htxn
  split at htxn
  · cases htxn
    exact hstart
  · exact h.active other txn htxn

theorem Inv.withSsiTxn (id : ℕ) {f : SsiTxn → SsiTxn}
    (hstart : ∀ txn, (f txn).startTs = txn.startTs) :
    Inv { s with manager := (s.manager.withSsiTxn id f).2 } := by
  unfold TxManager.withSsiTxn
  cases hold : s.manager.getSsiTxn id with
  | none => exact h
  | some old =>
    refine h.of_manager rfl fun other txn htxn ↦ ?_
    rw [TxManager.getSsiTxn_updateSsiTxn] at htxn
    split at htxn
    · cases htxn
      rw [hstart]
      exact h.active id old hold
    · exact h.active other txn htxn

theorem Inv.reject (id : ℕ) : Inv { s with manager := s.manager.reject id } := by
  refine h.of_manager rfl fun other txn htxn ↦ ?_
  rw [TxManager.getSsiTxn_reject] at htxn
  split at htxn
  · cases htxn
  · exact h.active other txn htxn

theorem Inv.recordWrites (keys : List Bytes) (htxn : s.manager.getSsiTxn id = some txn) :
    Inv { s with manager := s.manager.updateSsiTxn (txn.recordWrites keys) } := by
  have hwith := h.withSsiTxn id (f := fun txn ↦ txn.recordWrites keys)
    fun txn ↦ txn.recordWrites_startTs keys
  simpa only [TxManager.withSsiTxn, htxn] using hwith

end

/-! ## Commits -/

def Protected (s : SsiSystem) (id startTs : ℕ) : Prop :=
  ∃ other peer, other ≠ id ∧ s.manager.getSsiTxn other = some peer ∧ peer.startTs ≤ startTs

/-- The last transaction keeps the commit order a serialization order when
nothing that it overlapped with has touched its keys. -/
theorem Serializable.concat (h : s.Serializable)
    (hold : ∀ done ∈ s.committed, done.commitTs < commitTs)
    (huntouched : ∀ done ∈ s.committed, txn.startTs < done.commitTs →
      txn.Untouched done.txn.writeSet) {m : TxManager} {last : ℕ} :
    Serializable { s with
      manager := m
      lastCommitTs := last
      committed := s.committed ++ [⟨txn, commitTs⟩] } := by
  intro t ht u hu hafter hbefore
  cases List.mem_append.mp hu with
  | inr hmem =>
    -- nothing commits later than the new transaction
    obtain rfl := List.mem_singleton.mp hmem
    cases List.mem_append.mp ht with
    | inl hmem => exact absurd hbefore (Nat.not_lt.mpr (hold t hmem).le)
    | inr hmem =>
      obtain rfl := List.mem_singleton.mp hmem
      exact absurd hbefore (Nat.lt_irrefl _)
  | inl hu =>
    cases List.mem_append.mp ht with
    | inl ht => exact h t ht u hu hafter hbefore
    | inr hmem =>
      obtain rfl := List.mem_singleton.mp hmem
      have hfree := huntouched u hu hafter
      exact ⟨fun key hkey ↦ (hfree key hkey).1,
        fun key hkey hread ↦ (hfree key hkey).2 (.inl hread),
        fun range hrange key hkey hin ↦ (hfree key hkey).2 (.inr ⟨range, hrange, hin⟩)⟩

theorem Inv.promote (h : Inv s)
    (htxn : s.manager.getSsiTxn id = some txn) (hfresh : s.lastCommitTs < commitTs)
    (huntouched : ∀ done ∈ s.committed, txn.startTs < done.commitTs →
      txn.Untouched done.txn.writeSet) (hopening : ∀ o ∈ s.opening, s.Protected id o.startTs) :
    Inv { s with
      manager := (s.manager.setState id .committed).promote id commitTs
      lastCommitTs := commitTs
      committed := s.committed ++ [⟨txn, commitTs⟩] } := by
  have hold : ∀ done ∈ s.committed, done.commitTs < commitTs :=
    fun done hdone ↦ Nat.lt_of_le_of_lt (h.issued done hdone) hfresh
  -- what a protected snapshot needs survives the pruning
  have hcovered : ∀ startTs, s.Protected id startTs → s.Covered startTs →
      ∀ done ∈ s.committed ++ [⟨txn, commitTs⟩], startTs < done.commitTs →
        done.entry ∈ ((s.manager.setState id .committed).promote id commitTs).commitHistory := by
    rintro startTs ⟨other, peer, hne, hpeer, hle⟩ hcov done hdone hlt
    apply TxManager.mem_commitHistory_promote (m := s.manager.setState id .committed) htxn hpeer
      (Ne.symm hne) (Nat.lt_of_le_of_lt hle hlt)
    cases List.mem_append.mp hdone with
    | inl hmem => exact .inl (hcov done hmem hlt)
    | inr hmem =>
      obtain rfl := List.mem_singleton.mp hmem
      exact .inr rfl
  refine
    { issued := List.forall_mem_append.mpr
        ⟨fun done hdone ↦ (hold done hdone).le, List.forall_mem_singleton.mpr le_rfl⟩
      active := fun other peer hpeer ↦ ?_
      opening := fun o ho ↦ hcovered _ (hopening o ho) (h.opening o ho)
      serial := h.serial.concat hold huntouched }
  rw [TxManager.getSsiTxn_promote] at hpeer
  split at hpeer
  · cases hpeer
  · rename_i hne
    exact hcovered _ ⟨other, peer, Ne.symm hne, hpeer, le_rfl⟩ (h.active other peer hpeer)

theorem Inv.commit (h : Inv s) (keys : List Bytes) (hfresh : s.lastCommitTs < commitTs)
    (hopening : ∀ o ∈ s.opening, s.Protected id o.startTs) :
    Inv (s.commit id keys commitTs) := by
  unfold SsiSystem.commit
  cases htxn : s.manager.getSsiTxn id with
  | none =>
    obtain ⟨err, hresult⟩ := TxManager.recordWriteAndValidate_of_none keys htxn
    simp only [hresult]
    exact h
  | some txn =>
    have hrecorded := h.recordWrites keys htxn
    by_cases hpasses : s.manager.Passes txn keys
    · rw [TxManager.recordWriteAndValidate_of_passes htxn hpasses]
      have hid := TxManager.handle_id_of_getSsiTxn htxn
      have hcontext : (s.manager.updateSsiTxn (txn.recordWrites keys)).getSsiTxn id =
          some (txn.recordWrites keys) := by
        simp [hid]
      simp only [hcontext]
      have hissued : Inv { s with
          manager := s.manager.updateSsiTxn (txn.recordWrites keys)
          lastCommitTs := commitTs } :=
        { hrecorded with issued := fun done hdone ↦ (h.issued done hdone).trans hfresh.le }
      rcases TxManager.commitAt_cases (m := s.manager.updateSsiTxn (txn.recordWrites keys)) id
        commitTs with ⟨err, hresult⟩ | ⟨handle, _, _, hresult⟩
      · rw [hresult]
        exact hissued
      · rw [hresult]
        apply hrecorded.promote hcontext hfresh
        · intro done hdone hlt
          rw [SsiTxn.recordWrites_startTs] at hlt
          have hentry := h.active id txn htxn done hdone hlt
          exact hpasses.1 done.entry (List.mem_append_left _ hentry) hlt
        · intro o ho
          obtain ⟨other, peer, hne, hpeer, hle⟩ := hopening o ho
          refine ⟨other, peer, hne, ?_, hle⟩
          simp [hid, Ne.symm hne, hpeer]
    · obtain ⟨err, -, hresult⟩ := TxManager.recordWriteAndValidate_of_not_passes htxn hpasses
      rw [hresult]
      exact hrecorded.reject id

/-! ## Whole runs -/

/-- A commit finds every transaction that is between its snapshot and its
registration protected by an older registered one. -/
def WindowProtected (s : SsiSystem) : SsiOp → Prop
  | .commit id _ _ => ∀ o ∈ s.opening, s.Protected id o.startTs
  | _ => True

theorem Inv.step (h : Inv s) {op : SsiOp} {t : SsiSystem} (hwindow : s.WindowProtected op)
    (hstep : s.step op = some t) : Inv t := by
  cases op with
  | beginSsi id =>
    cases hstep
    exact h.beginSsi id h.covered_lastCommitTs
  | beginRead =>
    cases hstep
    exact { h with
      opening := List.forall_mem_append.mpr
        ⟨h.opening, List.forall_mem_singleton.mpr h.covered_lastCommitTs⟩ }
  | reserveTxId index =>
    simp only [SsiSystem.step] at hstep
    split at hstep
    · rename_i startTs hget
      cases hstep
      refine { h with opening := fun o ho ↦ ?_ }
      cases List.mem_or_eq_of_mem_set ho with
      | inl hmem => exact h.opening o hmem
      | inr heq =>
        subst heq
        exact h.opening (.snapshot startTs) (List.mem_of_getElem? hget)
    · cases hstep
  | register index =>
    simp only [SsiSystem.step] at hstep
    split at hstep
    · rename_i startTs txId hget
      cases hstep
      have hcovered := h.opening (.reserved startTs txId) (List.mem_of_getElem? hget)
      have hbegin := h.beginSsi txId hcovered
      exact { hbegin with
        opening := fun o ho ↦ hbegin.opening o (List.mem_of_mem_eraseIdx ho) }
    · cases hstep
  | recordRead id key | addReadConflictRange id lower upper | recordWrite id key =>
    cases hstep
    exact h.withSsiTxn id fun _ ↦ rfl
  | abort id =>
    cases hstep
    rcases s.manager.abort_cases id with hsame | hreject
    · rw [hsame]
      exact h
    · rw [hreject]
      exact h.reject id
  | commit id keys commitTs =>
    obtain ⟨hfresh, ⟨⟩⟩ := Option.ite_none_right_eq_some.mp hstep
    exact h.commit keys hfresh hwindow
  | autocommit commitTs =>
    obtain ⟨hfresh, ⟨⟩⟩ := Option.ite_none_right_eq_some.mp hstep
    exact { h with issued := fun done hdone ↦ (h.issued done hdone).trans hfresh.le }

/-! ## Begins in one step -/

@[simp] theorem opening_commit (s : SsiSystem) (id : ℕ) (keys : List Bytes) (commitTs : ℕ) :
    (s.commit id keys commitTs).opening = s.opening := by
  unfold SsiSystem.commit
  split
  · rfl
  · split <;> rfl

def AtomicBegin : SsiOp → Prop
  | .beginRead => False
  | _ => True

theorem opening_step_eq_nil {op : SsiOp} {t : SsiSystem} (hop : AtomicBegin op)
    (hnil : s.opening = []) (hstep : s.step op = some t) : t.opening = [] := by
  cases op with
  | beginRead => cases hop
  | reserveTxId index | register index => simp [SsiSystem.step, hnil] at hstep
  | commit id keys commitTs =>
    obtain ⟨-, ⟨⟩⟩ := Option.ite_none_right_eq_some.mp hstep
    simpa using hnil
  | autocommit commitTs =>
    obtain ⟨-, ⟨⟩⟩ := Option.ite_none_right_eq_some.mp hstep
    exact hnil
  | _ =>
    cases hstep
    exact hnil

/-- With begins in one step the commit order is a serialization order, and the
history never loses an entry that an active transaction needs. -/
theorem serializable_along (ops : List SsiOp) (hops : ∀ op ∈ ops, AtomicBegin op) :
    Along step (fun s ↦ s.Serializable ∧ s.HistoryComplete) initial ops := by
  have hany : StepsMeet step (fun _ _ ↦ True) initial ops :=
    stepsMeet_true initial ops
  have hmeet := hany.and_of_forall_mem hops
  have hstart : Inv initial ∧ initial.opening = [] := ⟨inv_initial, rfl⟩
  refine hmeet.along (I := fun s ↦ Inv s ∧ s.opening = []) ?_ ?_ hstart
  · rintro s op t ⟨hinv, hnil⟩ ⟨-, hop⟩ hstep
    have hwindow : s.WindowProtected op := by
      cases op with
      | commit id keys commitTs => simp [WindowProtected, hnil]
      | _ => trivial
    exact ⟨hinv.step hwindow hstep, opening_step_eq_nil hop hnil hstep⟩
  · rintro s ⟨hinv, -⟩
    exact ⟨hinv.serial, hinv.active⟩

def overlapping : List SsiOp :=
  [.beginSsi 1, .beginSsi 2, .recordRead 2 [107], .commit 1 [[109]] 1, .commit 2 [[108]] 2]

theorem serializable_along_overlapping :
    Along step (fun s ↦ s.Serializable ∧ s.HistoryComplete) initial overlapping ∧
      ∃ s, run step initial overlapping = some s ∧
        (s.committed.map fun done ↦ (done.txn.startTs, done.commitTs)) = [(0, 1), (0, 2)] := by
  refine ⟨serializable_along overlapping ?_, _, rfl, by decide⟩
  simp [overlapping, AtomicBegin]

end SsiSystem

end HatP
