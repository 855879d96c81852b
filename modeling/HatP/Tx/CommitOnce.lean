import HatP.Lib.Run
import HatP.Tx.GroupCommit

/-!
# Transactions and their retries

The life of buffered transactions on a database with a transaction manager.
`try_commit` borrows the transaction, so it can be called again, and when it
fails it returns a copy that shares the id and the SSI context of the
original.  The answers to reads are left out; what matters here is what the
operations record in the manager.
-/

namespace HatP

open Transition
open Std (ExtTreeMap ExtTreeSet LawfulEqCmp)

structure Transaction where
  snapshotTs : ℕ
  mutations : List Mutation
  reservedTxId : Option ℕ
  isSsi : Bool

inductive DatabaseError
  | engine (err : EngineError)
  | readOnlyCommit
  | ssiConflict (txn : ℕ) (key : Bytes)
  | ssiReadWriteConflict (txn : ℕ) (key : Bytes)
deriving DecidableEq

/-- What the environment decides about a commit: the backpressure level and the
outcome of the append. -/
structure CommitEnv where
  throttled : Bool
  wal : Except String Unit

namespace Database

def initial : Database := ⟨.initial, .initial, 1⟩

def allocTxId (db : Database) : ℕ × Database :=
  let (start, nextTxId) := HatP.allocTxId db.nextTxId
  (start, { db with nextTxId := nextTxId })

def commitSingle (db : Database) (req : WriteCall) (wal : Except String Unit) :
    Except EngineError ℕ × Database :=
  match db.manager.onPreCommit req with
  | (.error err, m) => (.error err, { db with manager := m })
  | (.ok (), m) =>
    let db := { db with manager := m }
    match wal with
    | .error text => (.error (.io text), db)
    | .ok () =>
      let (commitTs, db) := db.commitOne req
      (.ok commitTs, db)

def writeWithTx (db : Database) (txId : ℕ) (mutations : List Mutation) (env : CommitEnv) :
    Except EngineError ℕ × Database :=
  if mutations = [] then (.error .emptyBatch, db)
  else if txId = 0 then (.error (.corrupt "tx_id 0 is reserved as sentinel"), db)
  else
    let db := { db with nextTxId := max db.nextTxId (min (txId + 1) maxU64) }
    if env.throttled then (.error .throttled, db)
    else db.commitSingle ⟨txId, mutations⟩ env.wal

def write (db : Database) (mutations : List Mutation) (env : CommitEnv) :
    Except EngineError ℕ × Database :=
  if mutations = [] then (.error .emptyBatch, db)
  else
    let (txId, db) := db.allocTxId
    db.writeWithTx txId mutations env

def begin (db : Database) : Transaction × Database :=
  let (snapshotTs, engine) := db.engine.beginRead
  (⟨snapshotTs, [], none, false⟩, { db with engine := engine })

def beginSsi (db : Database) : Transaction × Database :=
  let (startTs, engine) := db.engine.beginRead
  let (reserved, db) := { db with engine := engine }.allocTxId
  let (ssi, m) := db.manager.beginSsiWithId reserved startTs
  (⟨startTs, [], some ssi.handle.id, true⟩, { db with manager := m })

end Database

namespace Transaction

def withContext (t : Transaction) (db : Database) (f : SsiTxn → SsiTxn) : Database :=
  if t.isSsi then
    match t.reservedTxId with
    | some id => { db with manager := (db.manager.withSsiTxn id f).2 }
    | none => db
  else db

def recordSsiWrite (t : Transaction) (db : Database) (key : Bytes) : Database :=
  t.withContext db fun ssi ↦ ssi.recordWrite key

def put (t : Transaction) (db : Database) (key value : Bytes) : Transaction × Database :=
  ({ t with mutations := t.mutations ++ [.put key value] }, t.recordSsiWrite db key)

def delete (t : Transaction) (db : Database) (key : Bytes) : Transaction × Database :=
  ({ t with mutations := t.mutations ++ [.delete key] }, t.recordSsiWrite db key)

/-- A read that the buffer answers is not recorded. -/
def get (t : Transaction) (db : Database) (key : Bytes) : Database :=
  if t.mutations.any fun mutation ↦ mutation.key = key then db
  else t.withContext db fun ssi ↦ ssi.recordRead key

def scanRange (t : Transaction) (db : Database) (lower upper : Bytes) : Database :=
  t.withContext db fun ssi ↦ ssi.addReadConflictRange lower upper

def mapCommitError : EngineError → DatabaseError
  | .writeConflict txn key => .ssiConflict txn key
  | .readWriteConflict txn key => .ssiReadWriteConflict txn key
  | err => .engine err

def tryCommit (t : Transaction) (db : Database) (env : CommitEnv) :
    Except DatabaseError ℕ × Database :=
  if t.mutations = [] then (.error .readOnlyCommit, db)
  else
    let (result, db) :=
      match t.reservedTxId with
      | some id => db.writeWithTx id t.mutations env
      | none => db.write t.mutations env
    match result with
    | .ok commitTs => (.ok commitTs, db)
    | .error err => (.error (mapCommitError err), db)

/-- The copy that a failed commit returns pins the snapshot once more. -/
def cloneForRetry (t : Transaction) (db : Database) : Transaction × Database :=
  (t, { db with engine := db.engine.pinSnapshot t.snapshotTs })

/-- `Drop`: the manager's answer is ignored, and the snapshot pin goes. -/
def drop (t : Transaction) (db : Database) : Database :=
  let db := { db with engine := db.engine.unpinSnapshot t.snapshotTs }
  match t.reservedTxId with
  | some id => { db with manager := (db.manager.abort id).2 }
  | none => db

end Transaction

/-! ## Sessions -/

/-- A `try_commit` of a reserved id that returned `Ok`: what it applied, and the
write set that was validated on the way. -/
structure CommitRecord where
  txId : ℕ
  keys : List Bytes
  commitTs : ℕ
  validated : Option (ExtTreeSet Bytes)

inductive TxnOp
  | begin
  | beginSsi
  | put (index : ℕ) (key value : Bytes)
  | delete (index : ℕ) (key : Bytes)
  | get (index : ℕ) (key : Bytes)
  | scanRange (index : ℕ) (lower upper : Bytes)
  | tryCommit (index : ℕ) (env : CommitEnv)
  | drop (index : ℕ)

/-- The database, the transactions that callers hold (`none` once dropped) and
the commits of reserved ids so far. -/
structure Session where
  db : Database
  txns : List (Option Transaction)
  log : List CommitRecord

def TxManager.validatedSet (m : TxManager) (req : WriteCall) : Option (ExtTreeSet Bytes) :=
  match m.isAborted req.txId, m.recordWriteAndValidate req.txId req.keys with
  | false, (.ok (), m) => (m.getSsiTxn req.txId).map SsiTxn.writeSet
  | _, _ => none

namespace Session

def initial : Session := ⟨.initial, [], []⟩

def txn (s : Session) (index : ℕ) : Option Transaction := s.txns[index]?.bind id

def tryCommit (s : Session) (t : Transaction) (env : CommitEnv) : Session :=
  match t.tryCommit s.db env with
  | (.error _, db) =>
    let (copy, db) := t.cloneForRetry db
    { s with db := db, txns := s.txns ++ [some copy] }
  | (.ok commitTs, db) =>
    match t.reservedTxId with
    | none => { s with db := db }
    | some id =>
      let req : WriteCall := ⟨id, t.mutations⟩
      { s with
        db := db
        log := s.log ++ [⟨id, req.keys, commitTs, s.db.manager.validatedSet req⟩] }

def step (s : Session) : TxnOp → Option Session
  | .begin =>
    let (t, db) := s.db.begin
    some { s with db := db, txns := s.txns ++ [some t] }
  | .beginSsi =>
    let (t, db) := s.db.beginSsi
    some { s with db := db, txns := s.txns ++ [some t] }
  | .put index key value => (s.txn index).map fun t ↦
      let (t, db) := t.put s.db key value
      { s with db := db, txns := s.txns.set index (some t) }
  | .delete index key => (s.txn index).map fun t ↦
      let (t, db) := t.delete s.db key
      { s with db := db, txns := s.txns.set index (some t) }
  | .get index key => (s.txn index).map fun t ↦ { s with db := t.get s.db key }
  | .scanRange index lower upper =>
    (s.txn index).map fun t ↦ { s with db := t.scanRange s.db lower upper }
  | .tryCommit index env => (s.txn index).map fun t ↦ s.tryCommit t env
  | .drop index => (s.txn index).map fun t ↦
      { s with db := t.drop s.db, txns := s.txns.set index none }

/-- Every reserved id commits at most once, and every commit applied exactly
the write set that had just been validated. -/
structure CommitsOnce (s : Session) : Prop where
  once : (s.log.map CommitRecord.txId).Nodup
  validated : ∀ record ∈ s.log, ∃ writeSet, record.validated = some writeSet ∧
    ∀ key, key ∈ writeSet ↔ key ∈ record.keys

end Session

/-! ## Handles and contexts -/

namespace TxManager

variable {m m' : TxManager} {id next : ℕ} {state : TxnState} {req : WriteCall}

/-- The active transactions are the ones with a context, and all ids are below
`next`. -/
structure Tracked (m : TxManager) (next : ℕ) : Prop where
  known : ∀ id, (m.stateOf id).isSome → id < next
  context : ∀ id, (m.getSsiTxn id).isSome ↔ m.stateOf id = some .active

/-- No transaction is forgotten, a committed one stays committed, and a context
that is still there has the writes it had. -/
structure Keeps (m m' : TxManager) : Prop where
  known : ∀ id, (m.stateOf id).isSome → (m'.stateOf id).isSome
  committed : ∀ id, m.stateOf id = some .committed → m'.stateOf id = some .committed
  grows : ∀ id txn', (m.stateOf id).isSome → m'.getSsiTxn id = some txn' →
    ∃ txn, m.getSsiTxn id = some txn ∧ ∀ key ∈ txn.writeSet, key ∈ txn'.writeSet

/-- The transaction comes to an end, and its context goes. -/
structure Leaves (m : TxManager) (id : ℕ) (state : TxnState) (m' : TxManager) : Prop where
  states : ∀ other, m'.stateOf other =
    if id = other then (m.stateOf id).map fun _ ↦ state else m.stateOf other
  contexts : ∀ other, m'.getSsiTxn other = if id = other then none else m.getSsiTxn other

@[simp] theorem stateOf_promote (id commitTs other : ℕ) :
    (m.promote id commitTs).stateOf other = m.stateOf other := by
  unfold promote
  split <;> rfl

theorem stateOf_beginSsiWithId (id startTs other : ℕ) :
    (m.beginSsiWithId id startTs).2.stateOf other =
      if id = other then some .active else m.stateOf other := by
  simp only [stateOf, beginSsiWithId, updateSsiTxn, beginWithId, ExtTreeMap.getElem?_insert,
    LawfulEqCmp.compare_eq_iff_eq]
  split <;> rfl

theorem tracked_initial (next : ℕ) : initial.Tracked next where
  known id h := by simp [stateOf, initial] at h
  context id := by simp [stateOf, initial, getSsiTxn]

theorem Keeps.refl (m : TxManager) : m.Keeps m :=
  ⟨fun _ h ↦ h, fun _ h ↦ h, fun _ txn _ h ↦ ⟨txn, h, fun _ hkey ↦ hkey⟩⟩

theorem Keeps.trans {m₁ m₂ m₃ : TxManager} (h : m₁.Keeps m₂) (h' : m₂.Keeps m₃) :
    m₁.Keeps m₃ where
  known id hid := h'.known id (h.known id hid)
  committed id hid := h'.committed id (h.committed id hid)
  grows id txn₃ hknown htxn₃ := by
    obtain ⟨txn₂, htxn₂, hsub'⟩ := h'.grows id txn₃ (h.known id hknown) htxn₃
    obtain ⟨txn₁, htxn₁, hsub⟩ := h.grows id txn₂ hknown htxn₂
    exact ⟨txn₁, htxn₁, fun key hkey ↦ hsub' key (hsub key hkey)⟩

theorem Leaves.tracked (h : m.Leaves id state m') (hstate : state ≠ .active)
    (htracked : m.Tracked next) : m'.Tracked next where
  known other hother := by
    rw [h.states] at hother
    split at hother
    · rename_i heq
      apply htracked.known
      rw [← heq]
      simpa using hother
    · exact htracked.known other hother
  context other := by
    rw [h.states, h.contexts]
    split
    · cases m.stateOf id <;> simp [hstate]
    · exact htracked.context other

theorem Leaves.keeps (h : m.Leaves id state m') (hactive : m.stateOf id ≠ some .committed) :
    m.Keeps m' where
  known other hother := by
    rw [h.states]
    split
    · rename_i heq
      rw [Option.isSome_map, heq]
      exact hother
    · exact hother
  committed other hother := by
    rw [h.states, if_neg]
    · exact hother
    · intro heq
      exact hactive (heq ▸ hother)
  grows other txn' _ htxn' := by
    rw [h.contexts] at htxn'
    split at htxn'
    · cases htxn'
    · exact ⟨txn', htxn', fun _ hkey ↦ hkey⟩

theorem leaves_reject (id : ℕ) : m.Leaves id .aborted (m.reject id) :=
  ⟨stateOf_reject id, getSsiTxn_reject m id⟩

theorem leaves_promote (id commitTs : ℕ) :
    m.Leaves id .committed ((m.setState id .committed).promote id commitTs) :=
  ⟨fun other ↦ (stateOf_promote id commitTs other).trans (stateOf_setState id other .committed),
    getSsiTxn_promote id commitTs⟩

section

variable (h : m.Tracked next)

include h

theorem Tracked.mono {next' : ℕ} (hle : next ≤ next') : m.Tracked next' :=
  ⟨fun id hid ↦ (h.known id hid).trans_le hle, h.context⟩

theorem Tracked.beginSsiWithId (startTs : ℕ) :
    (m.beginSsiWithId next startTs).2.Tracked (next + 1) ∧
      m.Keeps (m.beginSsiWithId next startTs).2 := by
  have hother : ∀ {id}, (m.stateOf id).isSome → next ≠ id :=
    fun hid heq ↦ Nat.lt_irrefl _ (heq ▸ h.known _ hid)
  refine ⟨⟨fun id hid ↦ ?_, fun id ↦ ?_⟩, fun id hid ↦ ?_, fun id hid ↦ ?_,
    fun id txn' hid htxn' ↦ ?_⟩
  · rw [stateOf_beginSsiWithId] at hid
    split at hid
    · omega
    · exact (h.known id hid).trans (Nat.lt_succ_self next)
  · rw [stateOf_beginSsiWithId, getSsiTxn_beginSsiWithId]
    split
    · simp
    · exact h.context id
  · rwa [stateOf_beginSsiWithId, if_neg (hother hid)]
  · rwa [stateOf_beginSsiWithId, if_neg (hother (Option.isSome_of_eq_some hid))]
  · rw [getSsiTxn_beginSsiWithId, if_neg (hother hid)] at htxn'
    exact ⟨txn', htxn', fun _ hkey ↦ hkey⟩

theorem Tracked.updateSsiTxn {old txn : SsiTxn}
    (hold : m.getSsiTxn id = some old) (hid : txn.handle.id = id)
    (hsub : ∀ key ∈ old.writeSet, key ∈ txn.writeSet) :
    (m.updateSsiTxn txn).Tracked next ∧ m.Keeps (m.updateSsiTxn txn) := by
  refine ⟨⟨h.known, fun other ↦ ?_⟩, fun _ h ↦ h, fun _ h ↦ h, fun other txn' _ htxn' ↦ ?_⟩
  · rw [getSsiTxn_updateSsiTxn, stateOf_updateSsiTxn, ← h.context other, hid]
    split
    · rename_i heq
      rw [← heq, hold]
      simp
    · exact Iff.rfl
  · rw [getSsiTxn_updateSsiTxn, hid] at htxn'
    split at htxn'
    · rename_i heq
      cases htxn'
      exact ⟨old, heq ▸ hold, hsub⟩
    · exact ⟨txn', htxn', fun _ hkey ↦ hkey⟩

theorem Tracked.withSsiTxn (id : ℕ) {f : SsiTxn → SsiTxn} (hf : ∀ txn,
      (f txn).handle = txn.handle ∧ ∀ key ∈ txn.writeSet, key ∈ (f txn).writeSet) :
    (m.withSsiTxn id f).2.Tracked next ∧ m.Keeps (m.withSsiTxn id f).2 := by
  unfold TxManager.withSsiTxn
  cases hold : m.getSsiTxn id with
  | none => exact ⟨h, .refl m⟩
  | some old =>
    refine h.updateSsiTxn hold ?_ (hf old).2
    rw [(hf old).1, handle_id_of_getSsiTxn hold]

theorem Tracked.recorded (req : WriteCall) :
    (m.recorded req).Tracked next ∧ m.Keeps (m.recorded req) := by
  unfold TxManager.recorded
  split
  · rename_i txn htxn
    refine h.updateSsiTxn htxn ?_ fun key hkey ↦ ?_
    · rw [SsiTxn.recordWrites_handle, handle_id_of_getSsiTxn htxn]
    · rw [SsiTxn.mem_writeSet_recordWrites]
      exact .inl hkey
  · exact ⟨h, .refl m⟩

theorem Tracked.stateOf_of_not_admits
    (hadmits : ¬m.Admits req) (haborted : m.isAborted req.txId = false) :
    m.stateOf req.txId = some .active := by
  rw [← h.context]
  by_contra hnone
  refine hadmits ⟨haborted, fun txn htxn ↦ ?_⟩
  simp [htxn] at hnone

theorem Tracked.onPreCommit (req : WriteCall) :
    (m.onPreCommit req).2.Tracked next ∧ m.Keeps (m.onPreCommit req).2 := by
  obtain ⟨htracked, hkeeps⟩ := h.recorded req
  by_cases hadmits : m.Admits req
  · rw [onPreCommit_of_admits hadmits]
    exact ⟨htracked, hkeeps⟩
  · obtain ⟨err, hresult⟩ := onPreCommit_of_not_admits hadmits
    rw [hresult]
    unfold refused
    cases haborted : m.isAborted req.txId with
    | true => exact ⟨h, .refl m⟩
    | false =>
      have hactive := h.stateOf_of_not_admits hadmits haborted
      rw [← stateOf_recorded req] at hactive
      have hleaves := (m.recorded req).leaves_reject req.txId
      exact ⟨hleaves.tracked (by decide) htracked,
        hkeeps.trans (hleaves.keeps (by rw [hactive]; decide))⟩

theorem Tracked.onTxCommit (id commitTs : ℕ) :
    (m.onTxCommit id commitTs).Tracked next ∧ m.Keeps (m.onTxCommit id commitTs) := by
  unfold TxManager.onTxCommit
  rcases commitAt_cases (m := m) id commitTs with
    ⟨err, hresult⟩ | ⟨handle, hhandle, hactive, hresult⟩
  · rw [hresult]
    exact ⟨h, .refl m⟩
  · rw [hresult]
    have hleaves := m.leaves_promote id commitTs
    exact ⟨hleaves.tracked (by decide) h, hleaves.keeps (by simp [stateOf, hhandle, hactive])⟩

theorem Tracked.abort (id : ℕ) : (m.abort id).2.Tracked next ∧ m.Keeps (m.abort id).2 := by
  unfold TxManager.abort
  split
  · exact ⟨h, .refl m⟩
  · rename_i handle hhandle
    split
    · rename_i hactive
      have hleaves := m.leaves_reject id
      exact ⟨hleaves.tracked (by decide) h, hleaves.keeps (by simp [stateOf, hhandle, hactive])⟩
    · exact ⟨h, .refl m⟩

end

theorem stateOf_onTxCommit {commitTs : ℕ} (h : m.stateOf id = some .active) :
    (m.onTxCommit id commitTs).stateOf id = some .committed := by
  obtain ⟨handle, hhandle, hactive⟩ := Option.map_eq_some_iff.mp h
  simp [onTxCommit, commitAt, hhandle, hactive, h]

theorem validatedSet_of_admits {txn : SsiTxn} (h : m.Admits req)
    (htxn : m.getSsiTxn req.txId = some txn) :
    m.validatedSet req = some (txn.recordWrites req.keys).writeSet := by
  have hresult := recordWriteAndValidate_of_passes htxn (h.2 txn htxn)
  simp [validatedSet, h.1, hresult, handle_id_of_getSsiTxn htxn]

end TxManager

/-! ## Commits -/

namespace Database

structure Sound (db : Database) : Prop where
  tracked : db.manager.Tracked db.nextTxId
  positive : 0 < db.nextTxId

/-- `db'` is sound and comes from `db` by operations that forget nothing. -/
structure Follows (db db' : Database) : Prop extends Sound db' where
  keeps : db.manager.Keeps db'.manager

variable {db : Database} (h : db.Sound)

include h

theorem Sound.commitSingle (req : WriteCall) (wal : Except String Unit) :
    db.Follows (db.commitSingle req wal).2 := by
  obtain ⟨hpre, hkeeps⟩ := h.tracked.onPreCommit req
  unfold Database.commitSingle
  cases hresult : db.manager.onPreCommit req with
  | mk result m =>
    rw [hresult] at hpre hkeeps
    cases result with
    | error err => exact ⟨⟨hpre, h.positive⟩, hkeeps⟩
    | ok u =>
      cases wal with
      | error text => exact ⟨⟨hpre, h.positive⟩, hkeeps⟩
      | ok u =>
        obtain ⟨hcommit, hkeeps'⟩ := hpre.onTxCommit req.txId db.engine.commitSeq
        exact ⟨⟨hcommit, h.positive⟩, hkeeps.trans hkeeps'⟩

theorem Sound.writeWithTx (txId : ℕ) (mutations : List Mutation) (env : CommitEnv) :
    db.Follows (db.writeWithTx txId mutations env).2 := by
  have hbumped : Sound { db with nextTxId := max db.nextTxId (min (txId + 1) maxU64) } :=
    ⟨h.tracked.mono (le_max_left _ _), lt_max_of_lt_left h.positive⟩
  unfold Database.writeWithTx
  split
  · exact ⟨h, .refl _⟩
  split
  · exact ⟨h, .refl _⟩
  dsimp only
  split
  · exact ⟨hbumped, .refl _⟩
  · have hsingle := hbumped.commitSingle ⟨txId, mutations⟩ env.wal
    exact ⟨hsingle.toSound, hsingle.keeps⟩

variable (hids : db.nextTxId < maxU64)

include hids

theorem Sound.write (mutations : List Mutation) (env : CommitEnv) :
    db.Follows (db.write mutations env).2 := by
  unfold Database.write
  split
  · exact ⟨h, .refl _⟩
  · rw [allocTxId, HatP.allocTxId_eq h.positive hids]
    have hnext : Sound { db with nextTxId := db.nextTxId + 1 } :=
      ⟨h.tracked.mono (Nat.le_succ _), Nat.succ_pos _⟩
    have hwrite := hnext.writeWithTx db.nextTxId mutations env
    exact ⟨hwrite.toSound, hwrite.keeps⟩

theorem Sound.beginSsi_eq :
    db.beginSsi = (⟨db.engine.snapshotTs, [], some db.nextTxId, true⟩,
      { engine := db.engine.beginRead.2
        manager := (db.manager.beginSsiWithId db.nextTxId db.engine.snapshotTs).2
        nextTxId := db.nextTxId + 1 }) := by
  simp only [beginSsi, allocTxId, HatP.allocTxId_eq h.positive hids]
  rfl

theorem Sound.beginSsi : db.Follows db.beginSsi.2 := by
  obtain ⟨htracked, hkeeps⟩ := h.tracked.beginSsiWithId db.engine.snapshotTs
  rw [h.beginSsi_eq hids]
  exact ⟨⟨htracked, Nat.succ_pos _⟩, hkeeps⟩

omit h hids

theorem writeWithTx_eq_ok {txId commitTs : ℕ} {mutations : List Mutation} {env : CommitEnv}
    (h : (db.writeWithTx txId mutations env).1 = .ok commitTs) :
    db.manager.Admits ⟨txId, mutations⟩ ∧
      (db.writeWithTx txId mutations env).2.manager =
        (db.manager.recorded ⟨txId, mutations⟩).onTxCommit txId commitTs := by
  unfold Database.writeWithTx at h ⊢
  split at h
  · cases h
  split at h
  · cases h
  dsimp only at h ⊢
  split at h
  · cases h
  rename_i hempty hzero hthrottled
  rw [if_neg hempty, if_neg hzero, if_neg hthrottled]
  unfold Database.commitSingle at h ⊢
  by_cases hadmits : db.manager.Admits ⟨txId, mutations⟩
  · simp only [TxManager.onPreCommit_of_admits hadmits] at h ⊢
    cases hwal : env.wal with
    | error text => simp [hwal] at h
    | ok u =>
      simp only [hwal] at h
      cases h
      exact ⟨hadmits, rfl⟩
  · obtain ⟨err, hresult⟩ := TxManager.onPreCommit_of_not_admits hadmits
    simp [hresult] at h

end Database

namespace Transaction

variable {db : Database}

theorem withContext_follows (h : db.Sound) (t : Transaction) {f : SsiTxn → SsiTxn} (hf : ∀ txn,
      (f txn).handle = txn.handle ∧ ∀ key ∈ txn.writeSet, key ∈ (f txn).writeSet) :
    db.Follows (t.withContext db f) := by
  unfold withContext
  split
  · split
    · obtain ⟨htracked, hkeeps⟩ := h.tracked.withSsiTxn _ hf
      exact ⟨⟨htracked, h.positive⟩, hkeeps⟩
    · exact ⟨h, .refl _⟩
  · exact ⟨h, .refl _⟩

theorem mem_writeSet_recordSsiWrite {t : Transaction} {id : ℕ} {key : Bytes} {txn : SsiTxn}
    (hssi : t.isSsi = true) (hid : t.reservedTxId = some id)
    (htxn : (t.recordSsiWrite db key).manager.getSsiTxn id = some txn) : key ∈ txn.writeSet := by
  rw [recordSsiWrite, withContext, if_pos hssi] at htxn
  simp only [hid, TxManager.withSsiTxn] at htxn
  split at htxn
  next hnone => exact absurd (htxn.symm.trans hnone) (Option.some_ne_none txn)
  next old hold =>
    have hsame : old.handle.id = id := TxManager.handle_id_of_getSsiTxn hold
    rw [TxManager.getSsiTxn_updateSsiTxn, if_pos (by exact hsame)] at htxn
    cases htxn
    exact ExtTreeSet.mem_insert_self

theorem tryCommit_follows (h : db.Sound) (hids : db.nextTxId < maxU64) (t : Transaction)
    (env : CommitEnv) : db.Follows (t.tryCommit db env).2 := by
  unfold tryCommit
  split
  · exact ⟨h, .refl _⟩
  cases t.reservedTxId with
  | some id =>
    have hwrite := h.writeWithTx id t.mutations env
    dsimp only
    split <;> exact hwrite
  | none =>
    have hwrite := h.write hids t.mutations env
    dsimp only
    split <;> exact hwrite

theorem drop_follows (h : db.Sound) (t : Transaction) : db.Follows (t.drop db) := by
  unfold Transaction.drop
  split
  · obtain ⟨htracked, hkeeps⟩ := h.tracked.abort _
    exact ⟨⟨htracked, h.positive⟩, hkeeps⟩
  · exact ⟨⟨h.tracked, h.positive⟩, .refl _⟩

theorem tryCommit_eq_ok {t : Transaction} {env : CommitEnv} {id commitTs : ℕ}
    (hid : t.reservedTxId = some id) (h : (t.tryCommit db env).1 = .ok commitTs) :
    db.manager.Admits ⟨id, t.mutations⟩ ∧
      (t.tryCommit db env).2.manager =
        (db.manager.recorded ⟨id, t.mutations⟩).onTxCommit id commitTs := by
  unfold tryCommit at h ⊢
  split at h
  · cases h
  rename_i hempty
  rw [if_neg hempty]
  simp only [hid] at h ⊢
  cases hresult : (db.writeWithTx id t.mutations env).1 with
  | error err => simp [hresult] at h
  | ok ts =>
    simp only [hresult] at h ⊢
    cases h
    exact Database.writeWithTx_eq_ok hresult

end Transaction

theorem TxManager.stateOf_eq_active {m : TxManager} {id : ℕ} (hknown : (m.stateOf id).isSome)
    (hfresh : m.stateOf id ≠ some .committed) (haborted : m.isAborted id = false) :
    m.stateOf id = some .active := by
  cases hstate : m.stateOf id with
  | none => simp [hstate] at hknown
  | some state =>
    cases state with
    | active => rfl
    | committed => exact absurd hstate hfresh
    | aborted =>
      have htrue := TxManager.isAborted_eq_true_iff.mpr hstate
      simp [haborted] at htrue

/-! ## Whole sessions -/

namespace Session

/-- The counter of ids has not come to its end, where it wraps. -/
def IdsLeft (s : Session) : Prop := s.db.nextTxId < maxU64

instance : DecidablePred IdsLeft := fun s ↦ inferInstanceAs (Decidable (s.db.nextTxId < maxU64))

/-- The condition on commits: the id has not been committed before, and the
context holds no write that this transaction does not carry. -/
def CommitAllowed (s : Session) : TxnOp → Prop
  | .tryCommit index _ => ∀ t, s.txn index = some t → ∀ id, t.reservedTxId = some id →
      s.db.manager.stateOf id ≠ some .committed ∧
      ∀ ssi, s.db.manager.getSsiTxn id = some ssi →
        ∀ key ∈ ssi.writeSet, key ∈ t.mutations.map Mutation.key
  | _ => True

/-- What every session keeps, whatever is committed twice: the context of a reserved
id has the writes of all transactions that share it. -/
structure Recorded (s : Session) : Prop where
  sound : s.db.Sound
  reserved : ∀ t, some t ∈ s.txns → ∀ id, t.reservedTxId = some id →
    t.isSsi = true ∧ id ≠ 0 ∧ (s.db.manager.stateOf id).isSome ∧
      s.db.manager.Covers ⟨id, t.mutations⟩

variable {s s' : Session} {t : Transaction} {index : ℕ}

theorem recorded_initial : initial.Recorded :=
  ⟨⟨TxManager.tracked_initial 1, Nat.one_pos⟩, fun _ h ↦ by cases h⟩

theorem mem_txns_of_txn (h : s.txn index = some t) : some t ∈ s.txns := by
  obtain ⟨entry, hentry, heq⟩ := Option.bind_eq_some_iff.mp h
  cases heq
  exact List.mem_of_getElem? hentry

section

variable (h : s.Recorded)

include h

theorem Recorded.of_follows {db : Database} {txns : List (Option Transaction)}
    {log : List CommitRecord} (hfollows : s.db.Follows db)
    (htxns : ∀ t, some t ∈ txns → some t ∈ s.txns ∨ t.reservedTxId = none) :
    Recorded ⟨db, txns, log⟩ where
  sound := hfollows.toSound
  reserved t ht id hid := by
    rcases htxns t ht with hold | hnone
    · obtain ⟨hssi, hzero, hknown, hcovers⟩ := h.reserved t hold id hid
      refine ⟨hssi, hzero, hfollows.keeps.known id hknown, fun txn' htxn' key hkey ↦ ?_⟩
      obtain ⟨txn, htxn, hsub⟩ := hfollows.keeps.grows id txn' hknown htxn'
      exact hsub key (hcovers txn htxn key hkey)
    · rw [hnone] at hid
      cases hid

theorem Recorded.buffer (ht : s.txn index = some t) (mutation : Mutation) :
    Recorded { s with
      db := t.recordSsiWrite s.db mutation.key
      txns := s.txns.set index (some { t with mutations := t.mutations ++ [mutation] }) } ∧
    s.db.Follows (t.recordSsiWrite s.db mutation.key) := by
  have hfollows : s.db.Follows (t.recordSsiWrite s.db mutation.key) :=
    t.withContext_follows h.sound fun txn ↦
      ⟨rfl, fun key hkey ↦ ExtTreeSet.mem_insert.mpr (.inr hkey)⟩
  have hrecord : Recorded { s with db := t.recordSsiWrite s.db mutation.key } :=
    h.of_follows hfollows fun _ ht ↦ .inl ht
  refine ⟨⟨hrecord.sound, fun other hother id hid ↦ ?_⟩, hfollows⟩
  rcases List.mem_or_eq_of_mem_set hother with hold | hnew
  · exact hrecord.reserved other hold id hid
  · cases hnew
    obtain ⟨hssi, hzero, hknown, hcovers⟩ := hrecord.reserved t (mem_txns_of_txn ht) id hid
    refine ⟨hssi, hzero, hknown, fun txn htxn key hkey ↦ ?_⟩
    rw [WriteCall.keys, List.map_append, List.mem_append] at hkey
    rcases hkey with hkey | hkey
    · exact hcovers txn htxn key hkey
    · obtain rfl := List.mem_singleton.mp hkey
      exact Transaction.mem_writeSet_recordSsiWrite hssi hid htxn

theorem Recorded.read (t : Transaction) {f : SsiTxn → SsiTxn}
    (hf : ∀ txn, (f txn).handle = txn.handle ∧ (f txn).writeSet = txn.writeSet) :
    Recorded { s with db := t.withContext s.db f } ∧ s.db.Follows (t.withContext s.db f) := by
  have hfollows : s.db.Follows (t.withContext s.db f) :=
    t.withContext_follows h.sound fun txn ↦ ⟨(hf txn).1, fun key hkey ↦ (hf txn).2 ▸ hkey⟩
  exact ⟨h.of_follows hfollows fun _ ht ↦ .inl ht, hfollows⟩

theorem Recorded.beginSsi (hids : s.IdsLeft) :
    Recorded { s with db := s.db.beginSsi.2, txns := s.txns ++ [some s.db.beginSsi.1] } := by
  have hfollows := h.sound.beginSsi hids
  refine ⟨hfollows.toSound, fun t ht id hid ↦ ?_⟩
  rcases List.mem_append.mp ht with hold | hnew
  · have hcopy : Recorded ⟨s.db.beginSsi.2, s.txns, s.log⟩ :=
      h.of_follows hfollows fun _ h ↦ .inl h
    exact hcopy.reserved t hold id hid
  · cases List.mem_singleton.mp hnew
    rw [h.sound.beginSsi_eq hids] at hid ⊢
    cases hid
    refine ⟨rfl, h.sound.positive.ne', ?_, fun _ _ key hkey ↦ by cases hkey⟩
    simp [TxManager.stateOf_beginSsiWithId]

theorem Recorded.tryCommit (hids : s.IdsLeft) (ht : some t ∈ s.txns) (env : CommitEnv) :
    (s.tryCommit t env).Recorded ∧ s.db.Follows (s.tryCommit t env).db := by
  have hfollows := t.tryCommit_follows h.sound hids env
  rw [Session.tryCommit]
  cases hresult : t.tryCommit s.db env with
  | mk result db =>
    rw [hresult] at hfollows
    cases result with
    | error err =>
      have hpinned : s.db.Follows (t.cloneForRetry db).2 :=
        ⟨⟨hfollows.tracked, hfollows.positive⟩, hfollows.keeps⟩
      refine ⟨h.of_follows hpinned fun other hother ↦ .inl ?_, hpinned⟩
      rcases List.mem_append.mp hother with hold | hnew
      · exact hold
      · cases List.mem_singleton.mp hnew
        exact ht
    | ok commitTs =>
      cases t.reservedTxId with
      | none | some id => exact ⟨h.of_follows hfollows fun _ ht ↦ .inl ht, hfollows⟩

theorem Recorded.step (hids : s.IdsLeft) {op : TxnOp} (hstep : s.step op = some s') :
    s'.Recorded ∧ s.db.Follows s'.db := by
  cases op with
  | «begin» =>
    cases hstep
    have hpinned : s.db.Follows s.db.begin.2 := ⟨⟨h.sound.tracked, h.sound.positive⟩, .refl _⟩
    refine ⟨h.of_follows hpinned fun t ht ↦ ?_, hpinned⟩
    rcases List.mem_append.mp ht with hold | hnew
    · exact .inl hold
    · cases List.mem_singleton.mp hnew
      exact .inr rfl
  | beginSsi =>
    cases hstep
    exact ⟨h.beginSsi hids, h.sound.beginSsi hids⟩
  | put index key value =>
    obtain ⟨t, ht, rfl⟩ := Option.map_eq_some_iff.mp hstep
    exact h.buffer ht (.put key value)
  | delete index key =>
    obtain ⟨t, ht, rfl⟩ := Option.map_eq_some_iff.mp hstep
    exact h.buffer ht (.delete key)
  | get index key =>
    obtain ⟨t, ht, rfl⟩ := Option.map_eq_some_iff.mp hstep
    rw [Transaction.get]
    split
    · exact ⟨h, h.sound, .refl _⟩
    · exact h.read t fun txn ↦ ⟨rfl, rfl⟩
  | scanRange index lower upper =>
    obtain ⟨t, ht, rfl⟩ := Option.map_eq_some_iff.mp hstep
    exact h.read t fun txn ↦ ⟨rfl, rfl⟩
  | tryCommit index env =>
    obtain ⟨t, ht, rfl⟩ := Option.map_eq_some_iff.mp hstep
    exact h.tryCommit hids (mem_txns_of_txn ht) env
  | drop index =>
    obtain ⟨t, ht, rfl⟩ := Option.map_eq_some_iff.mp hstep
    have hfollows := t.drop_follows h.sound
    refine ⟨h.of_follows hfollows fun other hother ↦ .inl ?_, hfollows⟩
    exact (List.mem_or_eq_of_mem_set hother).resolve_right (Option.some_ne_none other)

end

structure Inv (s : Session) : Prop extends Recorded s, CommitsOnce s where
  logged : ∀ record ∈ s.log, s.db.manager.stateOf record.txId = some .committed

theorem inv_initial : Inv initial where
  toRecorded := recorded_initial
  once := List.nodup_nil
  validated _ h := by cases h
  logged _ h := by cases h

section

variable (h : Inv s)

include h

theorem Inv.of_log_eq (hrecorded : s'.Recorded) (hfollows : s.db.Follows s'.db)
    (hlog : s'.log = s.log) : Inv s' where
  toRecorded := hrecorded
  once := hlog ▸ h.once
  validated record hrecord := h.validated record (hlog ▸ hrecord)
  logged record hrecord := hfollows.keeps.committed _ (h.logged record (hlog ▸ hrecord))

/-- An allowed commit of a reserved id that succeeds was validated with exactly
the keys it writes, and its id was not in the log. -/
theorem Inv.logged_commit {env : CommitEnv} {id commitTs : ℕ}
    (ht : some t ∈ s.txns) (hid : t.reservedTxId = some id)
    (hfresh : s.db.manager.stateOf id ≠ some .committed)
    (hown : ∀ ssi, s.db.manager.getSsiTxn id = some ssi →
      ∀ key ∈ ssi.writeSet, key ∈ t.mutations.map Mutation.key)
    (hok : (t.tryCommit s.db env).1 = .ok commitTs)
    (hrecorded : s'.Recorded) (hfollows : s.db.Follows s'.db)
    (hdb : s'.db = (t.tryCommit s.db env).2)
    (hlog : s'.log = s.log ++ [⟨id, t.mutations.map Mutation.key, commitTs,
      s.db.manager.validatedSet ⟨id, t.mutations⟩⟩]) : Inv s' := by
  obtain ⟨hadmits, hmanager⟩ := Transaction.tryCommit_eq_ok hid hok
  have hactive : s.db.manager.stateOf id = some .active :=
    TxManager.stateOf_eq_active (h.reserved t ht id hid).2.2.1 hfresh hadmits.1
  obtain ⟨ssi, hssi⟩ := Option.isSome_iff_exists.mp ((h.sound.tracked.context id).mpr hactive)
  have hset := TxManager.validatedSet_of_admits hadmits hssi
  have hcommitted : s'.db.manager.stateOf id = some .committed := by
    rw [hdb, hmanager]
    apply TxManager.stateOf_onTxCommit
    rw [TxManager.stateOf_recorded, hactive]
  refine
    { toRecorded := hrecorded
      once := ?_
      validated := fun record hrecord ↦ ?_
      logged := fun record hrecord ↦ ?_ }
  · rw [hlog, List.map_append, List.nodup_append]
    refine ⟨h.once, List.nodup_singleton _, ?_⟩
    intro a ha b hb heq
    obtain ⟨record, hrecord, hrecordId⟩ := List.mem_map.mp ha
    have hb' : b = id := List.mem_singleton.mp hb
    have hlogged := h.logged record hrecord
    rw [hrecordId, heq, hb'] at hlogged
    exact hfresh hlogged
  · rw [hlog] at hrecord
    cases List.mem_append.mp hrecord with
    | inl hold => exact h.validated record hold
    | inr hnew =>
      obtain rfl := List.mem_singleton.mp hnew
      refine ⟨_, hset, fun key ↦ ?_⟩
      rw [SsiTxn.mem_writeSet_recordWrites]
      exact or_iff_right_of_imp (hown ssi hssi key)
  · rw [hlog] at hrecord
    cases List.mem_append.mp hrecord with
    | inl hold => exact hfollows.keeps.committed _ (h.logged record hold)
    | inr hnew =>
      obtain rfl := List.mem_singleton.mp hnew
      exact hcommitted

theorem Inv.tryCommit {env : CommitEnv} (ht : s.txn index = some t)
    (hallowed : s.CommitAllowed (.tryCommit index env)) (hrecorded : (s.tryCommit t env).Recorded)
    (hfollows : s.db.Follows (s.tryCommit t env).db) : Inv (s.tryCommit t env) := by
  rw [Session.tryCommit] at hrecorded hfollows ⊢
  cases hresult : t.tryCommit s.db env with
  | mk result db =>
    rw [hresult] at hrecorded hfollows
    cases result with
    | error err => exact h.of_log_eq hrecorded hfollows rfl
    | ok commitTs =>
      cases hid : t.reservedTxId with
      | none =>
        simp only [hid] at hrecorded hfollows
        exact h.of_log_eq hrecorded hfollows rfl
      | some id =>
        simp only [hid] at hrecorded hfollows
        obtain ⟨hfresh, hown⟩ := hallowed t ht id hid
        exact h.logged_commit (mem_txns_of_txn ht) hid hfresh hown (congrArg Prod.fst hresult)
          hrecorded hfollows (congrArg Prod.snd hresult).symm rfl

theorem Inv.step {op : TxnOp} (hids : s.IdsLeft) (hallowed : s.CommitAllowed op)
    (hstep : s.step op = some s') : Inv s' := by
  obtain ⟨hrecorded, hfollows⟩ := h.toRecorded.step hids hstep
  cases op with
  | «begin» | beginSsi =>
    cases hstep
    exact h.of_log_eq hrecorded hfollows rfl
  | put | delete | get | scanRange | drop =>
    obtain ⟨t, ht, rfl⟩ := Option.map_eq_some_iff.mp hstep
    exact h.of_log_eq hrecorded hfollows rfl
  | tryCommit index env =>
    obtain ⟨t, ht, rfl⟩ := Option.map_eq_some_iff.mp hstep
    exact h.tryCommit ht hallowed hrecorded hfollows

end

/-- Sessions in which no committed id is committed again, and no copy of a
transaction commits while its context holds writes of another copy. -/
theorem commitsOnce_along (ops : List TxnOp)
    (hmeet : StepsMeet step (fun s op ↦ s.IdsLeft ∧ s.CommitAllowed op) initial ops) :
    Along step CommitsOnce initial ops := by
  refine hmeet.along (I := Inv) ?_ ?_ inv_initial
  · intro s op s' hinv ⟨hids, hallowed⟩ hstep
    exact hinv.step hids hallowed hstep
  · intro s hinv
    exact hinv.toCommitsOnce

/-- A commit that fails at the append is retried through the returned copy. -/
def retried : List TxnOp :=
  [.beginSsi, .get 0 [108], .put 0 [107] [1], .tryCommit 0 ⟨false, .error "disk full"⟩,
    .tryCommit 1 ⟨false, .ok ()⟩]

theorem commitsOnce_along_retried :
    Along step CommitsOnce initial retried ∧
      ∃ s, run step initial retried = some s ∧
        (s.log.map fun record ↦ (record.txId, record.commitTs)) = [(1, 1)] := by
  refine ⟨commitsOnce_along retried ?_, _, rfl, by decide⟩
  have hown : ∀ writeSet : ExtTreeSet Bytes, writeSet.toList = [[107]] →
      ∀ key ∈ writeSet, key ∈ [([107] : Bytes)] := by
    intro writeSet hlist key hkey
    rw [← hlist]
    exact ExtTreeSet.mem_toList.mpr hkey
  iterate 3
    intro s hs
    cases hs
    refine ⟨⟨by decide, trivial⟩, ?_⟩
  iterate 2
    intro s hs
    cases hs
    refine ⟨⟨by decide, ?_⟩, ?_⟩
    · intro t ht id hid
      cases ht
      cases hid
      refine ⟨by decide, fun ssi hssi ↦ ?_⟩
      cases hssi
      exact hown _ (by decide)
  trivial

def recommitted : List TxnOp :=
  [.beginSsi, .put 0 [107] [1], .tryCommit 0 ⟨false, .ok ()⟩, .tryCommit 0 ⟨false, .ok ()⟩]

def copyWrites : List TxnOp :=
  [.beginSsi, .tryCommit 0 ⟨false, .ok ()⟩, .put 1 [108] [2], .put 0 [107] [1],
    .tryCommit 0 ⟨false, .ok ()⟩]

/-- The second commit of an id is applied without any validation, and a copy
makes the original validate more than it writes. -/
theorem commit_not_once :
    (∃ s, run step initial recommitted = some s ∧
      (s.log.map fun record ↦ (record.txId, record.commitTs)) = [(1, 1), (1, 2)] ∧
      (s.log.map fun record ↦ record.validated.isSome) = [true, false] ∧ ¬s.CommitsOnce) ∧
    ∃ s, run step initial copyWrites = some s ∧
      (s.log.map fun record ↦ (record.keys, record.validated.map ExtTreeSet.toList)) =
        [([[107]], some [[107], [108]])] ∧ ¬s.CommitsOnce := by
  have hmore : ∀ s : Session,
      (s.log.map fun record ↦ (record.keys, record.validated.map ExtTreeSet.toList)) =
        [([[107]], some [[107], [108]])] → ¬s.CommitsOnce := by
    intro s hlog honce
    obtain ⟨record, hrecord, heq⟩ := List.mem_map.mp (hlog ▸ List.mem_singleton_self _)
    obtain ⟨writeSet, hset, hexact⟩ := honce.validated record hrecord
    obtain ⟨hkeys, hlist⟩ := Prod.mk.inj heq
    rw [hset, Option.map_some, Option.some.injEq] at hlist
    have hmem : [108] ∈ writeSet := ExtTreeSet.mem_toList.mp (hlist ▸ by decide)
    have hkey := (hexact [108]).mp hmem
    rw [hkeys] at hkey
    exact absurd hkey (by decide)
  refine ⟨⟨_, rfl, by decide, by decide, fun h ↦ absurd h.once (by decide)⟩,
    _, rfl, by decide, hmore _ (by decide)⟩

end Session

end HatP
