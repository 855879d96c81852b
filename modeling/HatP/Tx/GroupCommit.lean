import HatP.Concurrent.WriteBatch
import HatP.Tx.Manager

/-!
# Group commit under SSI

`flush_pending_batch` with the hook of the transaction manager: every request
of the batch is validated first, then the survivors are logged together, and
only then do they reach the commit history one after the other.  Nothing is
staged in between, so the requests of one batch are not checked against each
other.
-/

namespace HatP

def WriteCall.keys (req : WriteCall) : List Bytes := req.mutations.map Mutation.key

/-- The parts of a database that a commit changes. -/
structure Database where
  engine : Engine
  manager : TxManager
  nextTxId : ℕ

def mapTxError : TxError → EngineError
  | .writeConflict txn key => .writeConflict txn key
  | .readWriteConflict txn key => .readWriteConflict txn key
  | .invalidState _ _ _ => .corrupt "ssi pre-commit validation failed"
  | .unknownTxn _ => .corrupt "ssi pre-commit validation failed"

namespace TxManager

def isAborted (m : TxManager) (id : ℕ) : Bool :=
  match m.get id with
  | .ok handle => decide (handle.state = .aborted)
  | .error _ => false

def onPreCommit (m : TxManager) (req : WriteCall) : Except EngineError Unit × TxManager :=
  if m.isAborted req.txId then (.error (.writeConflict req.txId []), m)
  else if (m.getSsiTxn req.txId).isNone then (.ok (), m)
  else
    match m.recordWriteAndValidate req.txId req.keys with
    | (.ok (), m) => (.ok (), m)
    | (.error (.unknownTxn _), m) => (.ok (), m)
    | (.error err, m) => (.error (mapTxError err), m)

/-- The result of `commit_at` is ignored. -/
def onTxCommit (m : TxManager) (txId commitTs : ℕ) : TxManager := (m.commitAt txId commitTs).2

/-- The manager after the hook was asked about the requests in turn. -/
def onPreCommitAll (m : TxManager) (requests : List WriteCall) : TxManager :=
  requests.foldl (fun m req ↦ (m.onPreCommit req).2) m

/-- The answer of the hook to the request at a place of the batch. -/
def verdict (m : TxManager) (requests : List WriteCall) (i : ℕ) : Except EngineError Unit :=
  ((m.onPreCommitAll (requests.take i)).onPreCommit (requests.getD i ⟨0, []⟩)).1

end TxManager

namespace Database

def commitOne (db : Database) (req : WriteCall) : ℕ × Database :=
  let commitTs := db.engine.commitSeq
  (commitTs,
    { db with
      engine := { db.engine with
        memtable := db.engine.memtable.applyMutationsBatch req.txId req.mutations commitTs
        commitSeq := db.engine.commitSeq + 1 }
      manager := db.manager.onTxCommit req.txId commitTs })

/-- A batch of requests, each of which is known by its place in the batch, and
the channels of their callers. -/
def flushPendingBatch (db : Database) (requests : List WriteCall) (outcome : AppendOutcome) :
    Channels × Database :=
  let calls := fun i ↦ requests.getD i ⟨0, []⟩
  let ledger := ⟨[], db.engine.commitSeq, db.engine.memtable, [], [], [], []⟩
  let ((ledger, channels), _) := HatP.flushPendingBatch calls ledger (fun _ ↦ [])
    (List.range requests.length) (db.manager.verdict requests) outcome
  (channels,
    { db with
      engine := { db.engine with memtable := ledger.memtable, commitSeq := ledger.commitSeq }
      manager := ledger.applied.foldl (fun m entry ↦ m.onTxCommit (calls entry.1).txId entry.2)
        (db.manager.onPreCommitAll requests) })

end Database

namespace TxManager

/-- The second request writes no key of the first one, and its transaction read
none. -/
def Independent (m : TxManager) (first second : WriteCall) : Prop :=
  ∀ key ∈ first.keys, key ∉ second.keys ∧
    ∀ txn, m.getSsiTxn second.txId = some txn → ¬txn.Reads key

/-- Of two requests that are answered `Ok`, the one with the larger timestamp is
independent of the other one. -/
def FirstCommitterWins (m : TxManager) (requests : List WriteCall) (channels : Channels) : Prop :=
  ∀ i firstTs j secondTs, .ok firstTs ∈ channels i → .ok secondTs ∈ channels j →
    firstTs < secondTs → ∀ first ∈ requests[i]?, ∀ second ∈ requests[j]?,
      m.Independent first second

/-- The request passes the checks of the hook: its transaction is not aborted,
nothing committed or staged after its snapshot touches it, and it closes no
cycle among the active ones. -/
def Admits (m : TxManager) (req : WriteCall) : Prop :=
  m.isAborted req.txId = false ∧ ∀ txn, m.getSsiTxn req.txId = some txn → m.Passes txn req.keys

/-- The manager without the contexts of these requests. -/
def without (m : TxManager) (requests : List WriteCall) : TxManager :=
  requests.foldl (fun m req ↦ m.removeSsiTxn req.txId) m

/-- Any two requests of the batch are independent if each of them passes the
checks in the state before the batch, with the transactions of the requests in
front of it out of the way. -/
def ConflictFree (m : TxManager) (requests : List WriteCall) : Prop :=
  ∀ i j, i < j → ∀ first ∈ requests[i]?, ∀ second ∈ requests[j]?,
    (m.without (requests.take i)).Admits first → (m.without (requests.take j)).Admits second →
      m.Independent first second

/-- The context of the request, if there is one, has all its writes. -/
def Covers (m : TxManager) (req : WriteCall) : Prop :=
  ∀ txn, m.getSsiTxn req.txId = some txn → ∀ key ∈ req.keys, key ∈ txn.writeSet

/-- Requests of different transactions that are not aborted and whose writes
were recorded when they were buffered. -/
structure Pending (m : TxManager) (requests : List WriteCall) : Prop where
  nodup : (requests.map WriteCall.txId).Nodup
  active : ∀ req ∈ requests, m.isAborted req.txId = false
  covered : ∀ req ∈ requests, m.Covers req

/-! ## What the hook does -/

def recorded (m : TxManager) (req : WriteCall) : TxManager :=
  match m.getSsiTxn req.txId with
  | some txn => m.updateSsiTxn (txn.recordWrites req.keys)
  | none => m

def refused (m : TxManager) (req : WriteCall) : TxManager :=
  if m.isAborted req.txId then m else (m.recorded req).reject req.txId

variable {m m' : TxManager} {req : WriteCall} {id : ℕ}

theorem isAborted_eq_true_iff : m.isAborted id = true ↔ m.stateOf id = some .aborted := by
  unfold isAborted get stateOf
  cases m.transactions[id]? <;> simp

theorem stateOf_recorded (req : WriteCall) (id : ℕ) :
    (m.recorded req).stateOf id = m.stateOf id := by
  unfold recorded
  split <;> rfl

theorem recorded_of_covers (h : m.Covers req) : m.recorded req = m := by
  rw [recorded]
  split
  next txn htxn =>
    rw [SsiTxn.recordWrites_of_subset (h txn htxn)]
    exact updateSsiTxn_self (by rw [handle_id_of_getSsiTxn htxn]; exact htxn)
  next => rfl

theorem onPreCommit_of_admits (h : m.Admits req) :
    m.onPreCommit req = (.ok (), m.recorded req) := by
  obtain ⟨hactive, hpasses⟩ := h
  unfold onPreCommit recorded
  cases htxn : m.getSsiTxn req.txId with
  | none => simp [hactive]
  | some txn =>
    simp [hactive, recordWriteAndValidate_of_passes htxn (hpasses txn htxn)]

theorem onPreCommit_of_not_admits (h : ¬m.Admits req) :
    ∃ err, m.onPreCommit req = (.error err, m.refused req) := by
  unfold onPreCommit refused recorded
  cases haborted : m.isAborted req.txId with
  | true => exact ⟨_, rfl⟩
  | false =>
    obtain ⟨txn, htxn, hfails⟩ : ∃ txn, m.getSsiTxn req.txId = some txn ∧
        ¬m.Passes txn req.keys := by
      by_contra hnone
      push Not at hnone
      exact h ⟨haborted, hnone⟩
    obtain ⟨err, hconflict, hresult⟩ := recordWriteAndValidate_of_not_passes htxn hfails
    simp only [htxn, hresult, Bool.false_eq_true, if_false, Option.isNone_some]
    cases err with
    | unknownTxn id => cases hconflict
    | _ => exact ⟨_, rfl⟩

/-! ## The state a request meets -/

/-- What requests in front of the others leave alone. -/
structure Meets (m : TxManager) (earlier : List WriteCall) (m' : TxManager) : Prop where
  history : m'.commitHistory = m.commitHistory
  provisional : m'.provisional = m.provisional
  context : ∀ id, id ∉ earlier.map WriteCall.txId → m'.getSsiTxn id = m.getSsiTxn id
  state : ∀ id, id ∉ earlier.map WriteCall.txId → m'.stateOf id = m.stateOf id
  aborted : ∀ id, m.isAborted id = true → m'.isAborted id = true

theorem Meets.trans {m'' : TxManager} {earlier later : List WriteCall} (h : m.Meets earlier m')
    (h' : m'.Meets later m'') : m.Meets (earlier ++ later) m'' where
  history := h'.history.trans h.history
  provisional := h'.provisional.trans h.provisional
  context id hid := by
    rw [List.map_append, List.mem_append, not_or] at hid
    exact (h'.context id hid.2).trans (h.context id hid.1)
  state id hid := by
    rw [List.map_append, List.mem_append, not_or] at hid
    exact (h'.state id hid.2).trans (h.state id hid.1)
  aborted id hid := h'.aborted id (h.aborted id hid)

theorem meets_recorded (m : TxManager) (req : WriteCall) : m.Meets [req] (m.recorded req) := by
  rw [recorded]
  split
  next txn htxn =>
    refine ⟨rfl, rfl, fun id hid ↦ ?_, fun _ _ ↦ rfl, fun _ h ↦ h⟩
    rw [getSsiTxn_updateSsiTxn, if_neg]
    rw [SsiTxn.recordWrites_handle, handle_id_of_getSsiTxn htxn]
    exact fun heq ↦ hid (heq ▸ List.mem_singleton_self _)
  next => exact ⟨rfl, rfl, fun _ _ ↦ rfl, fun _ _ ↦ rfl, fun _ h ↦ h⟩

theorem meets_reject (m : TxManager) (req : WriteCall) : m.Meets [req] (m.reject req.txId) := by
  have hother : ∀ id, id ∉ [req].map WriteCall.txId → req.txId ≠ id :=
    fun id hid heq ↦ hid (heq ▸ List.mem_singleton_self _)
  refine ⟨rfl, rfl, fun id hid ↦ ?_, fun id hid ↦ ?_, fun id hid ↦ ?_⟩
  · rw [getSsiTxn_reject, if_neg (hother id hid)]
  · rw [stateOf_reject, if_neg (hother id hid)]
  · rw [isAborted_eq_true_iff] at hid ⊢
    rw [stateOf_reject]
    split
    next heq => rw [heq, hid]; rfl
    next => exact hid

theorem meets_onPreCommit (m : TxManager) (req : WriteCall) :
    m.Meets [req] (m.onPreCommit req).2 := by
  by_cases hadmits : m.Admits req
  · rw [onPreCommit_of_admits hadmits]
    exact m.meets_recorded req
  · obtain ⟨err, hresult⟩ := onPreCommit_of_not_admits hadmits
    rw [hresult, refused]
    split
    · exact ⟨rfl, rfl, fun _ _ ↦ rfl, fun _ _ ↦ rfl, fun _ h ↦ h⟩
    · have hboth := (m.meets_recorded req).trans ((m.recorded req).meets_reject req)
      refine ⟨hboth.history, hboth.provisional, fun id hid ↦ hboth.context id ?_,
        fun id hid ↦ hboth.state id ?_, hboth.aborted⟩ <;> simpa using hid

theorem meets_onPreCommitAll (m : TxManager) (earlier : List WriteCall) :
    m.Meets earlier (m.onPreCommitAll earlier) := by
  induction earlier generalizing m with
  | nil => exact ⟨rfl, rfl, fun _ _ ↦ rfl, fun _ _ ↦ rfl, fun _ h ↦ h⟩
  | cons req rest ih => exact (m.meets_onPreCommit req).trans (ih _)

theorem getSsiTxn_without (m : TxManager) (requests : List WriteCall) (id : ℕ) :
    (m.without requests).getSsiTxn id =
      if id ∈ requests.map WriteCall.txId then none else m.getSsiTxn id := by
  induction requests generalizing m with
  | nil => rfl
  | cons req rest ih =>
    refine (ih _).trans ?_
    rw [getSsiTxn_removeSsiTxn]
    by_cases heq : req.txId = id
    · simp [heq]
    · simp [heq, Ne.symm heq]

theorem without_frame (m : TxManager) (requests : List WriteCall) :
    (m.without requests).commitHistory = m.commitHistory ∧
      (m.without requests).provisional = m.provisional ∧
      ∀ id, (m.without requests).isAborted id = m.isAborted id := by
  induction requests generalizing m with
  | nil => exact ⟨rfl, rfl, fun _ ↦ rfl⟩
  | cons req rest ih => exact ih (m.removeSsiTxn req.txId)

end TxManager

/-! ## Cycles -/

theorem OnCycle.exists_context {contexts : Std.ExtTreeMap ℕ SsiTxn} {id : ℕ}
    (h : OnCycle contexts id) : ∃ txn : SsiTxn, contexts[id]? = some txn := by
  obtain ⟨_, ⟨_, writer, _, hwriter, _⟩, _⟩ := Relation.TransGen.head'_iff.mp h
  exact ⟨writer, hwriter⟩

/-- Every vertex that a cycle passes through lies on a cycle. -/
theorem transGen_of_cycle {α : Type*} {r s : α → α → Prop} {a b : α}
    (hrs : ∀ x y, Relation.TransGen r x x → Relation.TransGen r y y → r x y → s x y)
    (hab : Relation.TransGen r a b) (hba : Relation.ReflTransGen r b a) :
    Relation.TransGen s a b := by
  induction hab with
  | single hstep => exact .single (hrs _ _ (.head' hstep hba) (.tail' hba hstep) hstep)
  | tail hab hstep ih =>
    have hback := hba.trans hab.to_reflTransGen
    exact .tail (ih (hba.head hstep)) (hrs _ _ (.head' hstep hback) (.tail' hback hstep) hstep)

theorem OnCycle.mono {contexts contexts' : Std.ExtTreeMap ℕ SsiTxn} {id : ℕ}
    (h : ∀ (id : ℕ) (txn : SsiTxn), contexts[id]? = some txn → contexts'[id]? = some txn)
    (hcycle : OnCycle contexts id) : OnCycle contexts' id := by
  refine transGen_of_cycle (fun a b _ _ hedge ↦ ?_) hcycle .refl
  obtain ⟨hne, writer, reader, hwriter, hreader, hkey⟩ := hedge
  exact ⟨hne, writer, reader, h a writer hwriter, h b reader hreader, hkey⟩

namespace TxManager

variable {m m' : TxManager} {req : WriteCall} {id : ℕ} {earlier later : List WriteCall}

theorem updateSsiTxn_recordWrites_of_covers (h : m.Covers req) {txn : SsiTxn}
    (htxn : m.getSsiTxn req.txId = some txn) :
    m.updateSsiTxn (txn.recordWrites req.keys) = m := by
  have hsame := recorded_of_covers h
  rwa [recorded, htxn] at hsame

/-- A pending request either passes, is on no cycle and changes nothing, or its
context goes. -/
theorem onPreCommit_of_covers (hactive : m.isAborted req.txId = false) (hcovers : m.Covers req) :
    ((m.onPreCommit req).2 = m ∧ ¬OnCycle m.ssiContexts req.txId) ∨
      (m.onPreCommit req).2 = m.reject req.txId := by
  by_cases hadmits : m.Admits req
  · rw [onPreCommit_of_admits hadmits, recorded_of_covers hcovers]
    refine .inl ⟨rfl, fun hcycle ↦ ?_⟩
    obtain ⟨txn, htxn⟩ := hcycle.exists_context
    have hfree := (hadmits.2 txn htxn).2
    rw [updateSsiTxn_recordWrites_of_covers hcovers htxn, handle_id_of_getSsiTxn htxn] at hfree
    exact hfree hcycle
  · obtain ⟨err, hresult⟩ := onPreCommit_of_not_admits hadmits
    rw [hresult, refused, hactive, recorded_of_covers hcovers]
    exact .inr rfl

theorem Pending.left (h : m.Pending (earlier ++ later)) : m.Pending earlier where
  nodup := by
    have hnodup := h.nodup
    rw [List.map_append] at hnodup
    exact (List.nodup_append.mp hnodup).1
  active req hreq := h.active req (List.mem_append_left _ hreq)
  covered req hreq := h.covered req (List.mem_append_left _ hreq)

/-- The requests in front have not touched the transaction of a pending one. -/
theorem Pending.last (h : m.Pending (earlier ++ [req])) :
    (m.onPreCommitAll earlier).isAborted req.txId = false ∧
      (m.onPreCommitAll earlier).Covers req ∧ req.txId ∉ earlier.map WriteCall.txId := by
  have hmeets := m.meets_onPreCommitAll earlier
  have hlast : req ∈ earlier ++ [req] := List.mem_append_right _ (List.mem_singleton_self _)
  have hnew : req.txId ∉ earlier.map WriteCall.txId := by
    have hnodup := h.nodup
    rw [List.map_append] at hnodup
    exact fun hmem ↦ (List.nodup_append.mp hnodup).2.2 _ hmem _ (List.mem_singleton_self _) rfl
  refine ⟨?_, fun txn htxn ↦ ?_, hnew⟩
  · rw [← h.active req hlast, Bool.eq_iff_iff, isAborted_eq_true_iff, isAborted_eq_true_iff,
      hmeets.state _ hnew]
  · rw [hmeets.context _ hnew] at htxn
    exact h.covered req hlast txn htxn

theorem Pending.not_onCycle (h : m.Pending earlier) :
    ∀ req ∈ earlier, ¬OnCycle (m.onPreCommitAll earlier).ssiContexts req.txId := by
  induction earlier using List.reverseRecOn with
  | nil => exact fun _ hreq ↦ by cases hreq
  | append_singleton earlier last ih =>
    obtain ⟨hactive, hcovers, -⟩ := h.last
    have hrest := ih h.left
    intro req hreq hcycle
    have hall : m.onPreCommitAll (earlier ++ [last]) =
        ((m.onPreCommitAll earlier).onPreCommit last).2 := List.foldl_append
    rw [hall] at hcycle
    rcases onPreCommit_of_covers hactive hcovers with ⟨hsame, hfree⟩ | hreject
    · rw [hsame] at hcycle
      rcases List.mem_append.mp hreq with hold | hlast
      · exact hrest req hold hcycle
      · rw [List.mem_singleton.mp hlast] at hcycle
        exact hfree hcycle
    · rw [hreject] at hcycle
      have hcontext := getSsiTxn_reject (m.onPreCommitAll earlier) last.txId
      obtain ⟨txn, htxn⟩ := hcycle.exists_context
      have hne : last.txId ≠ req.txId := fun heq ↦ by
        have hgone := hcontext req.txId
        rw [if_pos heq] at hgone
        exact Option.some_ne_none txn (htxn.symm.trans hgone)
      have hold : req ∈ earlier := (List.mem_append.mp hreq).resolve_right fun hlast ↦
        hne (List.mem_singleton.mp hlast ▸ rfl)
      refine hrest req hold (hcycle.mono fun id txn hid ↦ ?_)
      have hkept := (hcontext id).symm.trans hid
      split at hkept
      next => cases hkept
      next => exact hkept

theorem Pending.take {requests : List WriteCall} {i : ℕ} (h : m.Pending requests)
    (hreq : requests[i]? = some req) : m.Pending (requests.take i ++ [req]) := by
  have hsplit : m.Pending (requests.take (i + 1) ++ requests.drop (i + 1)) := by
    rwa [List.take_append_drop]
  have htake : requests.take (i + 1) = requests.take i ++ [req] := by
    rw [List.take_add_one, hreq]
    rfl
  exact htake ▸ hsplit.left

/-! ## Requests that pass -/

theorem passes_verdict_iff {requests : List WriteCall} {i : ℕ} (hreq : requests[i]? = some req) :
    passes (m.verdict requests) i = true ↔
      (m.onPreCommitAll (requests.take i)).Admits req := by
  rw [passes, verdict, List.getD_eq_getElem?_getD, hreq, Option.getD_some]
  by_cases hadmits : (m.onPreCommitAll (requests.take i)).Admits req
  · rw [onPreCommit_of_admits hadmits]
    exact iff_of_true rfl hadmits
  · obtain ⟨err, hresult⟩ := onPreCommit_of_not_admits hadmits
    rw [hresult]
    exact iff_of_false Bool.false_ne_true hadmits

theorem admits_without (h : (m.onPreCommitAll earlier).Admits req) :
    (m.without earlier).Admits req := by
  have hmeets := m.meets_onPreCommitAll earlier
  obtain ⟨hhistory, hprovisional, haborted⟩ := m.without_frame earlier
  have hsub : ∀ id txn, (m.without earlier).getSsiTxn id = some txn →
      (m.onPreCommitAll earlier).getSsiTxn id = some txn := by
    intro id txn htxn
    rw [getSsiTxn_without] at htxn
    split at htxn
    next => cases htxn
    next hid => rw [hmeets.context id hid, htxn]
  refine ⟨?_, fun txn htxn ↦ ?_⟩
  · rw [haborted, ← Bool.not_eq_true]
    exact fun htrue ↦ Bool.false_ne_true (h.1.symm.trans (hmeets.aborted _ htrue))
  · obtain ⟨hentries, hfree⟩ := h.2 txn (hsub _ _ htxn)
    rw [hmeets.history, hmeets.provisional] at hentries
    refine ⟨by rwa [hhistory, hprovisional], fun hcycle ↦ hfree (hcycle.mono ?_)⟩
    intro id other hid
    have hold := getSsiTxn_updateSsiTxn (m.without earlier) (txn.recordWrites req.keys) id
    refine (getSsiTxn_updateSsiTxn (m.onPreCommitAll earlier) _ id).trans ?_
    split
    next heq => rw [if_pos heq] at hold; exact hold.symm.trans hid
    next hne => rw [if_neg hne] at hold; exact hsub id other (hold.symm.trans hid)

theorem Pending.admits (h : m.Pending (earlier ++ [req]))
    (hadmits : (m.without earlier).Admits req) : (m.onPreCommitAll earlier).Admits req := by
  obtain ⟨hactive, hcovers, hnew⟩ := h.last
  have hmeets := m.meets_onPreCommitAll earlier
  obtain ⟨hhistory, hprovisional, -⟩ := m.without_frame earlier
  have hsame : ∀ id, id ∉ earlier.map WriteCall.txId →
      (m.without earlier).getSsiTxn id = (m.onPreCommitAll earlier).getSsiTxn id := by
    intro id hid
    rw [getSsiTxn_without, if_neg hid, hmeets.context id hid]
  refine ⟨hactive, fun txn htxn ↦ ?_⟩
  have hold := (hsame req.txId hnew).trans htxn
  obtain ⟨hentries, hfree⟩ := hadmits.2 txn hold
  rw [hhistory, hprovisional] at hentries
  have hwithout : (m.without earlier).Covers req := fun other hother ↦
    hcovers other ((hsame req.txId hnew).symm.trans hother)
  rw [updateSsiTxn_recordWrites_of_covers hwithout hold] at hfree
  refine ⟨by rwa [hmeets.history, hmeets.provisional], ?_⟩
  rw [updateSsiTxn_recordWrites_of_covers hcovers htxn]
  intro hcycle
  refine hfree (transGen_of_cycle (fun a b ha hb hedge ↦ ?_) hcycle .refl)
  -- No transaction in front of the request is left on a cycle.
  have hout : ∀ id, OnCycle (m.onPreCommitAll earlier).ssiContexts id →
      id ∉ earlier.map WriteCall.txId := by
    intro id hid hmem
    obtain ⟨other, hother, rfl⟩ := List.mem_map.mp hmem
    exact h.left.not_onCycle other hother hid
  obtain ⟨hne, writer, reader, hwriter, hreader, hkey⟩ := hedge
  exact ⟨hne, writer, reader, (hsame a (hout a ha)).trans hwriter,
    (hsame b (hout b hb)).trans hreader, hkey⟩

end TxManager

/-! ## The answers -/

theorem forall_zipIdx_lt_iff_pairwise {α : Type*} {R : α → α → Prop} {xs : List α} {n : ℕ} :
    (∀ a i b j, (a, i) ∈ xs.zipIdx n → (b, j) ∈ xs.zipIdx n → i < j → R a b) ↔ xs.Pairwise R := by
  rw [List.pairwise_iff_getElem]
  constructor
  · intro h i j hi hj hij
    apply h xs[i] (n + i) xs[j] (n + j)
    · exact List.mk_add_mem_zipIdx_iff_getElem?.mpr (List.getElem?_eq_getElem hi)
    · exact List.mk_add_mem_zipIdx_iff_getElem?.mpr (List.getElem?_eq_getElem hj)
    · omega
  · intro h a i b j ha hb hij
    obtain ⟨hni, hi, hai⟩ := List.mem_zipIdx ha
    obtain ⟨hnj, hj, hbj⟩ := List.mem_zipIdx hb
    rw [hai, hbj]
    exact h _ _ _ _ (by omega)

namespace Database

open TxManager

theorem mem_flushPendingBatch_iff {db : Database} {requests : List WriteCall} {i commitTs : ℕ} :
    .ok commitTs ∈ (db.flushPendingBatch requests .appended).1 i ↔
      (i, commitTs) ∈ ((List.range requests.length).filter
        (passes (db.manager.verdict requests))).zipIdx db.engine.commitSeq := by
  simp only [flushPendingBatch, flushPendingBatch_appended, foldl_commitStep, mem_foldl_send]
  simp [Ledger.append, Ledger.reject]

/-- The requests that are answered `Ok` are those that the hook admits, with
timestamps in the order of the batch. -/
theorem firstCommitterWins_iff_admitted (db : Database) (requests : List WriteCall) :
    db.manager.FirstCommitterWins requests (db.flushPendingBatch requests .appended).1 ↔
      ∀ i j, i < j → ∀ first ∈ requests[i]?, ∀ second ∈ requests[j]?,
        (db.manager.onPreCommitAll (requests.take i)).Admits first →
        (db.manager.onPreCommitAll (requests.take j)).Admits second →
          db.manager.Independent first second := by
  simp only [FirstCommitterWins, mem_flushPendingBatch_iff]
  rw [forall_zipIdx_lt_iff_pairwise (R := fun i j ↦ ∀ first ∈ requests[i]?,
    ∀ second ∈ requests[j]?, db.manager.Independent first second), List.pairwise_filter,
    List.pairwise_iff_getElem]
  simp only [List.length_range, List.getElem_range]
  constructor
  · intro h i j hij first hfirst second hsecond hi hj
    have hlt := (List.getElem?_eq_some_iff.mp hsecond).1
    exact h i j (hij.trans hlt) hlt hij ((passes_verdict_iff hfirst).mpr hi)
      ((passes_verdict_iff hsecond).mpr hj) first hfirst second hsecond
  · intro h i j _ _ hij hi hj first hfirst second hsecond
    exact h i j hij first hfirst second hsecond ((passes_verdict_iff hfirst).mp hi)
      ((passes_verdict_iff hsecond).mp hj)

/-- A batch whose append succeeds resolves its conflicts if there are none
between the requests that pass in the state before the batch; for requests of
different transactions with recorded writes this is exact. -/
theorem firstCommitterWins_iff (db : Database) (requests : List WriteCall) :
    (db.manager.ConflictFree requests →
      db.manager.FirstCommitterWins requests (db.flushPendingBatch requests .appended).1) ∧
    (db.manager.Pending requests →
      (db.manager.FirstCommitterWins requests (db.flushPendingBatch requests .appended).1 ↔
        db.manager.ConflictFree requests)) := by
  rw [firstCommitterWins_iff_admitted]
  have hfree : db.manager.ConflictFree requests → ∀ i j, i < j → ∀ first ∈ requests[i]?,
      ∀ second ∈ requests[j]?, (db.manager.onPreCommitAll (requests.take i)).Admits first →
        (db.manager.onPreCommitAll (requests.take j)).Admits second →
          db.manager.Independent first second :=
    fun h i j hij first hfirst second hsecond hi hj ↦
      h i j hij first hfirst second hsecond (admits_without hi) (admits_without hj)
  refine ⟨hfree, fun hpending ↦ ⟨fun h i j hij first hfirst second hsecond hi hj ↦ ?_, hfree⟩⟩
  exact h i j hij first hfirst second hsecond ((hpending.take hfirst).admits hi)
    ((hpending.take hsecond).admits hj)

/-- Transactions 1 and 2 are active; the first one has written `k`, the second
one has read `k` and written `key`. -/
def twoActive (key : Bytes) : Database where
  engine := .initial
  manager :=
    let m := ((TxManager.initial.beginSsiWithId 1 0).2.beginSsiWithId 2 0).2
    let m := (m.withSsiTxn 1 fun txn ↦ txn.recordWrite [107]).2
    (m.withSsiTxn 2 fun txn ↦ (txn.recordRead [107]).recordWrite key).2
  nextTxId := 3

/-- Two requests that write the same key are both answered `Ok`, and so are a
writer of `k` and, after it, a transaction that read the old `k`. -/
theorem batch_conflicts_missed :
    (∀ key ∈ [[107], [108]], ∀ id ∈ [1, 2], ((twoActive key).manager.getSsiTxn id).any (fun txn ↦
      txn.handle.state = .active ∧ txn.startTs < (twoActive key).engine.commitSeq) = true) ∧
    (let requests := [⟨1, [.put [107] [1]]⟩, ⟨2, [.put [107] [2]]⟩]
     let channels := ((twoActive [107]).flushPendingBatch requests .appended).1
     (channels 0 = [.ok 1] ∧ channels 1 = [.ok 2]) ∧
       ¬(twoActive [107]).manager.FirstCommitterWins requests channels) ∧
    (let requests := [⟨1, [.put [107] [1]]⟩, ⟨2, [.put [108] [2]]⟩]
     let channels := ((twoActive [108]).flushPendingBatch requests .appended).1
     (channels 0 = [.ok 1] ∧ channels 1 = [.ok 2]) ∧
       ¬(twoActive [108]).manager.FirstCommitterWins requests channels) := by
  refine ⟨by decide, ⟨⟨rfl, rfl⟩, fun h ↦ ?_⟩, ⟨rfl, rfl⟩, fun h ↦ ?_⟩
  · have hfree := h 0 1 1 2 (.head _) (.head _) (by decide) _ rfl _ rfl [107] (by decide)
    exact hfree.1 (by decide)
  · have hfree := h 0 1 1 2 (.head _) (.head _) (by decide) _ rfl _ rfl [107] (by decide)
    exact hfree.2 _ rfl (.inl (by decide))

end Database

end HatP
