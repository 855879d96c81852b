import HatP.Lib.Worklist
import HatP.Memtable

/-!
# The transaction manager

The lifecycle table, the contexts of the active SSI transactions, the history
of committed write sets, and the validation that a commit has to pass: no
write set committed after the transaction began may touch what it read or
wrote, and the transaction may not lie on a cycle of read-write dependencies
between active transactions.

Key sets are ordered here; the source leaves the order in which it looks
through them open, which matters only for the key named in an error.
-/

namespace HatP

open Std (ExtTreeMap ExtTreeSet LawfulEqCmp)

inductive IsolationHint
  | snapshot
deriving DecidableEq

inductive TxnState
  | active
  | committed
  | aborted
deriving DecidableEq

structure TxnHandle where
  id : ℕ
  isolation : IsolationHint
  state : TxnState
deriving DecidableEq

inductive TxError
  | invalidState (txn : ℕ) (expected actual : TxnState)
  | unknownTxn (txn : ℕ)
  | writeConflict (txn : ℕ) (key : Bytes)
  | readWriteConflict (txn : ℕ) (key : Bytes)
deriving DecidableEq

def TxError.IsConflict : TxError → Prop
  | .writeConflict _ _ => True
  | .readWriteConflict _ _ => True
  | _ => False

structure SsiTxn where
  handle : TxnHandle
  startTs : ℕ
  readSet : ExtTreeSet Bytes
  writeSet : ExtTreeSet Bytes
  readConflictRanges : List (Bytes × Bytes)

def inRange (range : Bytes × Bytes) (key : Bytes) : Bool :=
  decide (range.1 ≤ key) && decide (key < range.2)

namespace SsiTxn

def new (handle : TxnHandle) (startTs : ℕ) : SsiTxn := ⟨handle, startTs, ∅, ∅, []⟩

def recordRead (txn : SsiTxn) (key : Bytes) : SsiTxn :=
  { txn with readSet := txn.readSet.insert key }

def recordWrite (txn : SsiTxn) (key : Bytes) : SsiTxn :=
  { txn with writeSet := txn.writeSet.insert key }

def addReadConflictRange (txn : SsiTxn) (lower upper : Bytes) : SsiTxn :=
  { txn with readConflictRanges := txn.readConflictRanges ++ [(lower, upper)] }

def Reads (txn : SsiTxn) (key : Bytes) : Prop :=
  key ∈ txn.readSet ∨ ∃ range ∈ txn.readConflictRanges, range.1 ≤ key ∧ key < range.2

def Untouched (txn : SsiTxn) (keys : ExtTreeSet Bytes) : Prop :=
  ∀ key ∈ keys, key ∉ txn.writeSet ∧ ¬txn.Reads key

def recordWrites (txn : SsiTxn) (keys : List Bytes) : SsiTxn :=
  keys.foldl recordWrite txn

end SsiTxn

structure CommitEntry where
  writeSet : ExtTreeSet Bytes
  commitTs : ℕ

/-! ## Validation -/

def writeSetHitsReads (writeSet readSet : ExtTreeSet Bytes)
    (readRanges : List (Bytes × Bytes)) : Bool :=
  writeSet.toList.any fun key ↦
    readSet.contains key || readRanges.any fun range ↦ inRange range key

def checkConflict (txn : SsiTxn) (commitTs : ℕ) (writeSet : ExtTreeSet Bytes) :
    Except TxError Unit :=
  if commitTs ≤ txn.startTs then .ok ()
  else
    match txn.writeSet.toList.find? fun key ↦ writeSet.contains key with
    | some key => .error (.writeConflict txn.handle.id key)
    | none =>
      match txn.readSet.toList.find? fun key ↦ writeSet.contains key with
      | some key => .error (.readWriteConflict txn.handle.id key)
      | none =>
        match txn.readConflictRanges.findSome? fun range ↦
            writeSet.toList.find? fun key ↦ inRange range key with
        | some key => .error (.readWriteConflict txn.handle.id key)
        | none => .ok ()

def outgoing (contexts : ExtTreeMap ℕ SsiTxn) (txn : SsiTxn) : List ℕ :=
  contexts.toList.filterMap fun entry ↦
    if entry.1 = txn.handle.id then none
    else if writeSetHitsReads txn.writeSet entry.2.readSet entry.2.readConflictRanges then
      some entry.1
    else none

def outgoingOf (contexts : ExtTreeMap ℕ SsiTxn) (id : ℕ) : List ℕ :=
  match contexts[id]? with
  | some peer => outgoing contexts peer
  | none => []

/-- The loop of `validate_cahill`: whether the search that starts from `txn`
comes back to it.  Each expansion pushes at most one id for every context. -/
def reachesCommitter (contexts : ExtTreeMap ℕ SsiTxn) (txn : SsiTxn) : Bool :=
  Worklist.search (outgoingOf contexts) txn.handle.id
    (contexts.size + contexts.size * contexts.size) [txn.handle.id]
    (outgoing contexts txn).reverse

def validateCahill (txn : SsiTxn) (contexts : ExtTreeMap ℕ SsiTxn) : Except TxError Unit :=
  if reachesCommitter contexts txn then
    let key := txn.writeSet.toList.find? fun key ↦ contexts.toList.any fun peer ↦
      peer.2.readSet.contains key || peer.2.readConflictRanges.any fun range ↦ inRange range key
    .error (.readWriteConflict txn.handle.id (key.getD []))
  else .ok ()

/-! ## The manager -/

def Keyed (contexts : ExtTreeMap ℕ SsiTxn) : Prop :=
  ∀ (id : ℕ) (txn : SsiTxn), contexts[id]? = some txn → txn.handle.id = id

/-- Nothing that the engine or the hook calls ever adds to `provisional`. -/
structure TxManager where
  transactions : ExtTreeMap ℕ TxnHandle
  ssiContexts : ExtTreeMap ℕ SsiTxn
  commitHistory : List CommitEntry
  provisional : List CommitEntry
  keyed : Keyed ssiContexts

namespace TxManager

def initial : TxManager where
  transactions := ∅
  ssiContexts := ∅
  commitHistory := []
  provisional := []
  keyed _ _ h := by simp at h

def getSsiTxn (m : TxManager) (id : ℕ) : Option SsiTxn := m.ssiContexts[id]?

def updateSsiTxn (m : TxManager) (txn : SsiTxn) : TxManager :=
  { m with
    ssiContexts := m.ssiContexts.insert txn.handle.id txn
    keyed := by
      intro id other h
      rw [ExtTreeMap.getElem?_insert] at h
      split at h
      · rename_i heq
        cases h
        exact LawfulEqCmp.eq_of_compare heq
      · exact m.keyed _ _ h }

def removeSsiTxn (m : TxManager) (id : ℕ) : TxManager :=
  { m with
    ssiContexts := m.ssiContexts.erase id
    keyed := by
      intro other txn h
      rw [ExtTreeMap.getElem?_erase] at h
      split at h
      · cases h
      · exact m.keyed _ _ h }

def setState (m : TxManager) (id : ℕ) (state : TxnState) : TxManager :=
  { m with
    transactions := m.transactions.alter id fun handle ↦
      handle.map fun handle ↦ { handle with state := state } }

def beginWithId (m : TxManager) (id : ℕ) (isolation : IsolationHint) : TxnHandle × TxManager :=
  let handle : TxnHandle := ⟨id, isolation, .active⟩
  (handle, { m with transactions := m.transactions.insert id handle })

def beginSsiWithId (m : TxManager) (id startTs : ℕ) : SsiTxn × TxManager :=
  let (handle, m) := m.beginWithId id .snapshot
  let txn := SsiTxn.new handle startTs
  (txn, m.updateSsiTxn txn)

/-- `with_ssi_txn` for an update that leaves the handle alone. -/
def withSsiTxn (m : TxManager) (id : ℕ) (f : SsiTxn → SsiTxn) : Except TxError Unit × TxManager :=
  match m.getSsiTxn id with
  | none => (.error (.unknownTxn id), m)
  | some txn => (.ok (), m.updateSsiTxn (f txn))

def get (m : TxManager) (id : ℕ) : Except TxError TxnHandle :=
  match m.transactions[id]? with
  | some handle => .ok handle
  | none => .error (.unknownTxn id)

def validateSsiWithContexts (m : TxManager) (txn : SsiTxn)
    (contexts : ExtTreeMap ℕ SsiTxn) : Except TxError Unit := do
  m.commitHistory.forM fun entry ↦ checkConflict txn entry.commitTs entry.writeSet
  m.provisional.forM fun entry ↦ checkConflict txn entry.commitTs entry.writeSet
  validateCahill txn contexts

/-- A rejected commit is terminal: the handle is marked and the context goes. -/
def reject (m : TxManager) (id : ℕ) : TxManager :=
  (m.setState id .aborted).removeSsiTxn id

def recordWriteAndValidate (m : TxManager) (id : ℕ) (keys : List Bytes) :
    Except TxError Unit × TxManager :=
  match m.getSsiTxn id with
  | none =>
    match m.get id with
    | .ok handle =>
      if handle.state = .aborted then (.error (.invalidState id .active .aborted), m)
      else (.error (.unknownTxn id), m)
    | .error _ => (.error (.unknownTxn id), m)
  | some txn =>
    let txn := txn.recordWrites keys
    let m := m.updateSsiTxn txn
    match m.validateSsiWithContexts txn m.ssiContexts with
    | .ok () => (.ok (), m)
    | .error err => (.error err, m.reject id)

/-- `CommitHistory::garbage_collect`: entries go from the front only. -/
def garbageCollect (history : List CommitEntry) (watermark : ℕ) : List CommitEntry :=
  history.dropWhile fun entry ↦ decide (entry.commitTs ≤ watermark)

def historyWatermark (contexts : ExtTreeMap ℕ SsiTxn) : ℕ :=
  (contexts.toList.map fun peer ↦ peer.2.startTs).min?.getD maxU64

/-- The second half of `commit_at`: the write set of the context moves to the
history, and the history is pruned. -/
def promote (m : TxManager) (id commitTs : ℕ) : TxManager :=
  match m.getSsiTxn id with
  | none => m
  | some txn =>
    let m := m.removeSsiTxn id
    { m with
      commitHistory := garbageCollect (m.commitHistory ++ [⟨txn.writeSet, commitTs⟩])
        (historyWatermark m.ssiContexts) }

def commitAt (m : TxManager) (id commitTs : ℕ) : Except TxError TxnHandle × TxManager :=
  match m.transactions[id]? with
  | none => (.error (.unknownTxn id), m)
  | some handle =>
    if handle.state ≠ .active then (.error (.invalidState id .active handle.state), m)
    else (.ok { handle with state := .committed }, (m.setState id .committed).promote id commitTs)

def abort (m : TxManager) (id : ℕ) : Except TxError TxnHandle × TxManager :=
  match m.transactions[id]? with
  | none => (.error (.unknownTxn id), m)
  | some handle =>
    match handle.state with
    | .active => (.ok { handle with state := .aborted }, m.reject id)
    | actual => (.error (.invalidState id .active actual), m)

end TxManager

/-! ## What validation decides -/

theorem inRange_eq_true_iff {range : Bytes × Bytes} {key : Bytes} :
    inRange range key = true ↔ range.1 ≤ key ∧ key < range.2 := by
  simp [inRange]

variable {txn : SsiTxn} {contexts : ExtTreeMap ℕ SsiTxn} {writeSet : ExtTreeSet Bytes}

theorem SsiTxn.reads_iff {key : Bytes} :
    txn.Reads key ↔ (txn.readSet.contains key ||
      txn.readConflictRanges.any fun range ↦ inRange range key) = true := by
  rw [Bool.or_eq_true, List.any_eq_true, ExtTreeSet.contains_iff_mem]
  simp only [inRange_eq_true_iff, SsiTxn.Reads]

theorem writeSetHitsReads_eq_true_iff {peer : SsiTxn} :
    writeSetHitsReads writeSet peer.readSet peer.readConflictRanges = true ↔
      ∃ key ∈ writeSet, peer.Reads key := by
  simp only [writeSetHitsReads, List.any_eq_true, ExtTreeSet.mem_toList, SsiTxn.reads_iff]

theorem checkConflict_eq_ok_iff {commitTs : ℕ} :
    checkConflict txn commitTs writeSet = .ok () ↔
      (txn.startTs < commitTs → txn.Untouched writeSet) := by
  unfold checkConflict
  by_cases hts : commitTs ≤ txn.startTs
  · rw [if_pos hts]
    exact iff_of_true rfl fun hlt ↦ absurd hts (Nat.not_le.mpr hlt)
  rw [if_neg hts, imp_iff_right (Nat.lt_of_not_le hts)]
  cases hwrite : txn.writeSet.toList.find? fun key ↦ writeSet.contains key with
  | some key =>
    have hmem := List.mem_of_find?_eq_some hwrite
    have hkey := List.find?_some hwrite
    rw [ExtTreeSet.mem_toList] at hmem
    exact iff_of_false (by simp) fun h ↦
      (h key (ExtTreeSet.contains_iff_mem.mp hkey)).1 hmem
  | none =>
  cases hread : txn.readSet.toList.find? fun key ↦ writeSet.contains key with
  | some key =>
    have hmem := List.mem_of_find?_eq_some hread
    have hkey := List.find?_some hread
    rw [ExtTreeSet.mem_toList] at hmem
    exact iff_of_false (by simp) fun h ↦
      (h key (ExtTreeSet.contains_iff_mem.mp hkey)).2 (.inl hmem)
  | none =>
  cases hrange : txn.readConflictRanges.findSome? fun range ↦
      writeSet.toList.find? fun key ↦ inRange range key with
  | some key =>
    obtain ⟨range, hmem, hfind⟩ := List.exists_of_findSome?_eq_some hrange
    have hkey := List.mem_of_find?_eq_some hfind
    rw [ExtTreeSet.mem_toList] at hkey
    exact iff_of_false (by simp) fun h ↦
      (h key hkey).2 (.inr ⟨range, hmem, inRange_eq_true_iff.mp (List.find?_some hfind)⟩)
  | none =>
    simp only [List.find?_eq_none, List.findSome?_eq_none_iff, ExtTreeSet.mem_toList,
      ExtTreeSet.contains_iff_mem, inRange_eq_true_iff] at hwrite hread hrange
    refine iff_of_true rfl fun key hkey ↦ ⟨fun hmem ↦ hwrite key hmem hkey, ?_⟩
    rintro (hmem | ⟨range, hmem, hin⟩)
    · exact hread key hmem hkey
    · exact hrange range hmem key hkey hin

theorem forM_eq_ok_iff {α ε : Type*} {f : α → Except ε Unit} {xs : List α} :
    xs.forM f = .ok () ↔ ∀ x ∈ xs, f x = .ok () := by
  induction xs with
  | nil => simp [pure, Except.pure]
  | cons x xs ih =>
    cases hx : f x with
    | error err => simp [hx, bind, Except.bind]
    | ok u => simpa [hx, bind, Except.bind] using ih

/-- Validation passes exactly when every entry that the transaction did not
see in its snapshot leaves its reads and writes alone, and the transaction
closes no cycle. -/
theorem TxManager.validateSsiWithContexts_eq_ok_iff {m : TxManager} :
    m.validateSsiWithContexts txn contexts = .ok () ↔
      (∀ entry ∈ m.commitHistory ++ m.provisional,
        txn.startTs < entry.commitTs → txn.Untouched entry.writeSet) ∧
      validateCahill txn contexts = .ok () := by
  have hbind : ∀ (a b : Except TxError Unit),
      (a >>= fun _ ↦ b) = .ok () ↔ a = .ok () ∧ b = .ok () := by
    intro a b
    cases a <;> simp [bind, Except.bind]
  unfold validateSsiWithContexts
  rw [hbind, hbind, forM_eq_ok_iff, forM_eq_ok_iff]
  simp only [checkConflict_eq_ok_iff, List.forall_mem_append, and_assoc]

theorem checkConflict_error {commitTs : ℕ}
    {err : TxError} (h : checkConflict txn commitTs writeSet = .error err) : err.IsConflict := by
  unfold checkConflict at h
  split at h
  · cases h
  split at h
  · cases h
    trivial
  split at h
  · cases h
    trivial
  split at h
  · cases h
    trivial
  · cases h

theorem forM_error {α ε : Type*} {P : ε → Prop} {f : α → Except ε Unit}
    (hf : ∀ x err, f x = .error err → P err) {xs : List α} {err : ε}
    (h : xs.forM f = .error err) : P err := by
  induction xs with
  | nil => simp [pure, Except.pure] at h
  | cons x xs ih =>
    cases hx : f x with
    | error e =>
      simp only [List.forM_eq_forM, List.forM_cons, hx, bind, Except.bind] at h
      cases h
      exact hf x _ hx
    | ok u =>
      simp only [List.forM_eq_forM, List.forM_cons, hx, bind, Except.bind] at h
      exact ih h

theorem TxManager.validateSsiWithContexts_error {m : TxManager} {err : TxError}
    (h : m.validateSsiWithContexts txn contexts = .error err) : err.IsConflict := by
  have hcheck : ∀ (entry : CommitEntry) (err : TxError),
      checkConflict txn entry.commitTs entry.writeSet = .error err → err.IsConflict :=
    fun _ _ ↦ checkConflict_error
  unfold validateSsiWithContexts at h
  cases hhistory : m.commitHistory.forM fun entry ↦
      checkConflict txn entry.commitTs entry.writeSet with
  | error e =>
    rw [hhistory] at h
    cases h
    exact forM_error hcheck hhistory
  | ok u =>
    rw [hhistory] at h
    cases hstaged : m.provisional.forM fun entry ↦
        checkConflict txn entry.commitTs entry.writeSet with
    | error e =>
      rw [hstaged] at h
      cases h
      exact forM_error hcheck hstaged
    | ok u =>
      rw [hstaged] at h
      change validateCahill txn contexts = .error err at h
      unfold validateCahill at h
      split at h
      · cases h
        trivial
      · cases h

/-! ## Dependency cycles -/

def RwEdge (contexts : ExtTreeMap ℕ SsiTxn) (a b : ℕ) : Prop :=
  a ≠ b ∧ ∃ writer reader : SsiTxn, contexts[a]? = some writer ∧ contexts[b]? = some reader ∧
    ∃ key ∈ writer.writeSet, reader.Reads key

def OnCycle (contexts : ExtTreeMap ℕ SsiTxn) (id : ℕ) : Prop :=
  Relation.TransGen (RwEdge contexts) id id

theorem mem_outgoing_iff {b : ℕ} :
    b ∈ outgoing contexts txn ↔ txn.handle.id ≠ b ∧ ∃ reader : SsiTxn, contexts[b]? = some reader ∧
      ∃ key ∈ txn.writeSet, reader.Reads key := by
  simp only [outgoing, List.mem_filterMap, Prod.exists, ExtTreeMap.mem_toList_iff_getElem?_eq_some]
  constructor
  · rintro ⟨id, reader, hreader, hsome⟩
    split at hsome
    · cases hsome
    · rename_i hne
      split at hsome
      · rename_i hhits
        cases hsome
        exact ⟨Ne.symm hne, reader, hreader, writeSetHitsReads_eq_true_iff.mp hhits⟩
      · cases hsome
  · rintro ⟨hne, reader, hreader, hhits⟩
    refine ⟨b, reader, hreader, ?_⟩
    rw [if_neg (Ne.symm hne), if_pos (writeSetHitsReads_eq_true_iff.mpr hhits)]

theorem mem_outgoingOf_iff (hkeyed : Keyed contexts) {a b : ℕ} :
    b ∈ outgoingOf contexts a ↔ RwEdge contexts a b := by
  unfold outgoingOf RwEdge
  cases ha : contexts[a]? with
  | none => simp
  | some writer =>
    rw [mem_outgoing_iff, hkeyed a writer ha]
    simp

theorem length_outgoing_le (contexts : ExtTreeMap ℕ SsiTxn) (txn : SsiTxn) :
    (outgoing contexts txn).length ≤ contexts.size := by
  rw [← ExtTreeMap.length_toList]
  exact List.length_filterMap_le _ _

theorem length_outgoingOf_le (contexts : ExtTreeMap ℕ SsiTxn) (id : ℕ) :
    (outgoingOf contexts id).length ≤ contexts.size := by
  unfold outgoingOf
  split
  · exact length_outgoing_le contexts _
  · exact Nat.zero_le _

/-- The fuel of the search covers every id that it can push. -/
theorem unexplored_outgoingOf_le (contexts : ExtTreeMap ℕ SsiTxn) (visited : List ℕ) :
    Worklist.unexplored (outgoingOf contexts) contexts.keys visited ≤
      contexts.size * contexts.size := by
  have hlen : (contexts.keys.filter fun v ↦ v ∉ visited).length ≤ contexts.size := by
    rw [← ExtTreeMap.length_keys]
    exact List.length_filter_le _ _
  have hsum : Worklist.unexplored (outgoingOf contexts) contexts.keys visited ≤
      (contexts.keys.filter fun v ↦ v ∉ visited).length * contexts.size := by
    have h := List.sum_le_card_nsmul ((contexts.keys.filter fun v ↦ v ∉ visited).map
      fun v ↦ (outgoingOf contexts v).length) contexts.size (by
        intro n hn
        obtain ⟨v, _, rfl⟩ := List.mem_map.mp hn
        exact length_outgoingOf_le contexts v)
    simpa [Worklist.unexplored] using h
  exact hsum.trans (Nat.mul_le_mul_right _ hlen)

theorem outgoingOf_eq_nil {id : ℕ} (h : id ∉ contexts.keys) : outgoingOf contexts id = [] := by
  rw [ExtTreeMap.mem_keys, ExtTreeMap.mem_iff_isSome_getElem?, Option.not_isSome_iff_eq_none] at h
  simp [outgoingOf, h]

theorem reachesCommitter_eq_true_iff (hkeyed : Keyed contexts)
    (htxn : contexts[txn.handle.id]? = some txn) :
    reachesCommitter contexts txn = true ↔ OnCycle contexts txn.handle.id := by
  have hstart : outgoing contexts txn = outgoingOf contexts txn.handle.id := by
    simp [outgoingOf, htxn]
  have hfuel := Nat.add_le_add (length_outgoingOf_le contexts txn.handle.id)
    (unexplored_outgoingOf_le contexts [txn.handle.id])
  unfold reachesCommitter OnCycle
  rw [hstart, Worklist.search_eq_true_iff (fun _ ↦ outgoingOf_eq_nil) hfuel]
  have hedge : (fun a b ↦ b ∈ outgoingOf contexts a) = RwEdge contexts := by
    funext a b
    exact propext (mem_outgoingOf_iff hkeyed)
  rw [hedge]

theorem validateCahill_eq_ok_iff (hkeyed : Keyed contexts)
    (htxn : contexts[txn.handle.id]? = some txn) :
    validateCahill txn contexts = .ok () ↔ ¬OnCycle contexts txn.handle.id := by
  rw [← reachesCommitter_eq_true_iff hkeyed htxn, validateCahill]
  cases reachesCommitter contexts txn <;> simp

/-! ## What the operations leave behind -/

namespace SsiTxn

variable (txn : SsiTxn) (keys : List Bytes)

@[simp] theorem recordWrites_handle : (txn.recordWrites keys).handle = txn.handle := by
  induction keys generalizing txn with
  | nil => rfl
  | cons key keys ih => exact ih (txn.recordWrite key)

@[simp] theorem recordWrites_startTs : (txn.recordWrites keys).startTs = txn.startTs := by
  induction keys generalizing txn with
  | nil => rfl
  | cons key keys ih => exact ih (txn.recordWrite key)

@[simp] theorem mem_writeSet_recordWrites {key : Bytes} :
    key ∈ (txn.recordWrites keys).writeSet ↔ key ∈ txn.writeSet ∨ key ∈ keys := by
  induction keys generalizing txn with
  | nil => simp [recordWrites]
  | cons k keys ih =>
    refine (ih (txn.recordWrite k)).trans ?_
    simp [recordWrite, ExtTreeSet.mem_insert, or_assoc, or_comm (a := k = key), @eq_comm _ key k]

theorem recordWrite_of_mem {txn : SsiTxn} {key : Bytes} (h : key ∈ txn.writeSet) :
    txn.recordWrite key = txn := by
  have hset : txn.writeSet.insert key = txn.writeSet := by
    apply ExtTreeSet.ext_mem
    intro other
    rw [ExtTreeSet.mem_insert, LawfulEqCmp.compare_eq_iff_eq]
    exact or_iff_right_of_imp fun heq ↦ heq ▸ h
  rw [recordWrite, hset]

theorem recordWrites_of_subset {txn : SsiTxn} {keys : List Bytes}
    (h : ∀ key ∈ keys, key ∈ txn.writeSet) : txn.recordWrites keys = txn := by
  induction keys with
  | nil => rfl
  | cons key keys ih =>
    obtain ⟨hkey, hkeys⟩ := List.forall_mem_cons.mp h
    change (txn.recordWrite key).recordWrites keys = txn
    rw [recordWrite_of_mem hkey, ih hkeys]

end SsiTxn

namespace TxManager

variable {keys : List Bytes} {txn : SsiTxn} {id : ℕ}

variable (m : TxManager) {entry : CommitEntry}

@[simp] theorem getSsiTxn_initial (id : ℕ) : initial.getSsiTxn id = none := by
  simp [getSsiTxn, initial]

@[simp] theorem getSsiTxn_updateSsiTxn (txn : SsiTxn) (id : ℕ) :
    (m.updateSsiTxn txn).getSsiTxn id =
      if txn.handle.id = id then some txn else m.getSsiTxn id := by
  simp [getSsiTxn, updateSsiTxn, ExtTreeMap.getElem?_insert]

@[simp] theorem getSsiTxn_removeSsiTxn (id other : ℕ) :
    (m.removeSsiTxn id).getSsiTxn other = if id = other then none else m.getSsiTxn other := by
  simp [getSsiTxn, removeSsiTxn, ExtTreeMap.getElem?_erase]

@[simp] theorem getSsiTxn_setState (id other : ℕ) (state : TxnState) :
    (m.setState id state).getSsiTxn other = m.getSsiTxn other := rfl

@[simp] theorem getSsiTxn_reject (id other : ℕ) :
    (m.reject id).getSsiTxn other = if id = other then none else m.getSsiTxn other := by
  simp [reject]

theorem getSsiTxn_beginSsiWithId (id startTs other : ℕ) :
    (m.beginSsiWithId id startTs).2.getSsiTxn other =
      if id = other then some (.new ⟨id, .snapshot, .active⟩ startTs) else m.getSsiTxn other := by
  simp only [beginSsiWithId, getSsiTxn_updateSsiTxn]
  rfl

theorem abort_cases (id : ℕ) : (m.abort id).2 = m ∨ (m.abort id).2 = m.reject id := by
  unfold abort
  split
  · exact .inl rfl
  · split
    · exact .inr rfl
    · exact .inl rfl

variable {m}

theorem updateSsiTxn_self (h : m.getSsiTxn txn.handle.id = some txn) :
    m.updateSsiTxn txn = m := by
  have hcontexts : m.ssiContexts.insert txn.handle.id txn = m.ssiContexts := by
    apply ExtTreeMap.ext_getElem?
    intro id
    rw [ExtTreeMap.getElem?_insert]
    split
    next heq => rw [← LawfulEqCmp.eq_of_compare heq]; exact h.symm
    next => rfl
  cases m
  simp only [updateSsiTxn] at hcontexts ⊢
  congr

def stateOf (m : TxManager) (id : ℕ) : Option TxnState := m.transactions[id]?.map TxnHandle.state

@[simp] theorem stateOf_setState (id other : ℕ) (state : TxnState) :
    (m.setState id state).stateOf other =
      if id = other then (m.stateOf id).map fun _ ↦ state else m.stateOf other := by
  simp only [stateOf, setState, ExtTreeMap.getElem?_alter, LawfulEqCmp.compare_eq_iff_eq]
  split
  · cases m.transactions[id]? <;> rfl
  · rfl

@[simp] theorem stateOf_updateSsiTxn (txn : SsiTxn) (id : ℕ) :
    (m.updateSsiTxn txn).stateOf id = m.stateOf id := rfl

@[simp] theorem stateOf_reject (id other : ℕ) :
    (m.reject id).stateOf other =
      if id = other then (m.stateOf id).map fun _ ↦ .aborted else m.stateOf other :=
  stateOf_setState id other .aborted

/-- The two checks of a commit, in terms of the history and of the dependency
graph: nothing that was committed or staged after the snapshot touches the
transaction with its final write set, and it closes no cycle. -/
def Passes (m : TxManager) (txn : SsiTxn) (keys : List Bytes) : Prop :=
  (∀ entry ∈ m.commitHistory ++ m.provisional,
    txn.startTs < entry.commitTs → (txn.recordWrites keys).Untouched entry.writeSet) ∧
  ¬OnCycle (m.updateSsiTxn (txn.recordWrites keys)).ssiContexts txn.handle.id

theorem handle_id_of_getSsiTxn (h : m.getSsiTxn id = some txn) : txn.handle.id = id :=
  m.keyed id txn h

theorem validate_eq_ok_iff_passes :
    (m.updateSsiTxn (txn.recordWrites keys)).validateSsiWithContexts (txn.recordWrites keys)
        (m.updateSsiTxn (txn.recordWrites keys)).ssiContexts = .ok () ↔ m.Passes txn keys := by
  have hstored : (m.updateSsiTxn (txn.recordWrites keys)).ssiContexts[
      (txn.recordWrites keys).handle.id]? = some (txn.recordWrites keys) := by
    simp [updateSsiTxn]
  rw [validateSsiWithContexts_eq_ok_iff, validateCahill_eq_ok_iff (keyed _) hstored,
    SsiTxn.recordWrites_handle, SsiTxn.recordWrites_startTs]
  rfl

theorem recordWriteAndValidate_of_none (keys : List Bytes) (h : m.getSsiTxn id = none) :
    ∃ err, m.recordWriteAndValidate id keys = (.error err, m) := by
  unfold recordWriteAndValidate
  simp only [h]
  split
  · split
    · exact ⟨_, rfl⟩
    · exact ⟨_, rfl⟩
  · exact ⟨_, rfl⟩

theorem recordWriteAndValidate_of_passes
    (h : m.getSsiTxn id = some txn) (hpasses : m.Passes txn keys) :
    m.recordWriteAndValidate id keys = (.ok (), m.updateSsiTxn (txn.recordWrites keys)) := by
  simp only [recordWriteAndValidate, h, validate_eq_ok_iff_passes.mpr hpasses]

theorem recordWriteAndValidate_of_not_passes
    (h : m.getSsiTxn id = some txn) (hpasses : ¬m.Passes txn keys) :
    ∃ err, err.IsConflict ∧ m.recordWriteAndValidate id keys =
      (.error err, (m.updateSsiTxn (txn.recordWrites keys)).reject id) := by
  simp only [recordWriteAndValidate, h]
  cases hval : (m.updateSsiTxn (txn.recordWrites keys)).validateSsiWithContexts
      (txn.recordWrites keys) (m.updateSsiTxn (txn.recordWrites keys)).ssiContexts with
  | ok u => exact absurd (validate_eq_ok_iff_passes.mp hval) hpasses
  | error err => exact ⟨err, validateSsiWithContexts_error hval, rfl⟩

/-! ## The history -/

theorem historyWatermark_le {contexts : ExtTreeMap ℕ SsiTxn}
    (h : contexts[id]? = some txn) : historyWatermark contexts ≤ txn.startTs := by
  have hmem : (id, txn) ∈ contexts.toList :=
    ExtTreeMap.mem_toList_iff_getElem?_eq_some.mpr h
  exact List.min?_getD_le_of_mem (List.mem_map.mpr ⟨(id, txn), hmem, rfl⟩)

theorem mem_garbageCollect {history : List CommitEntry} {watermark : ℕ}
    (hmem : entry ∈ history) (hlt : watermark < entry.commitTs) :
    entry ∈ garbageCollect history watermark := by
  induction history with
  | nil => cases hmem
  | cons first rest ih =>
    rw [garbageCollect, List.dropWhile_cons]
    split
    · rename_i hle
      cases List.mem_cons.mp hmem with
      | inl heq =>
        subst heq
        exact absurd (of_decide_eq_true hle) (Nat.not_le.mpr hlt)
      | inr hrest => exact ih hrest
    · exact hmem

theorem getSsiTxn_promote (id commitTs other : ℕ) :
    (m.promote id commitTs).getSsiTxn other = if id = other then none else m.getSsiTxn other := by
  unfold promote
  split
  · rename_i hnone
    by_cases heq : id = other
    · rw [if_pos heq, ← heq, hnone]
    · rw [if_neg heq]
  · exact getSsiTxn_removeSsiTxn m id other

/-- An entry that is newer than the snapshot of another registered context
survives the commit, and so does the new entry. -/
theorem mem_commitHistory_promote {commitTs other : ℕ} {peer : SsiTxn}
    (htxn : m.getSsiTxn id = some txn)
    (hpeer : m.getSsiTxn other = some peer) (hne : id ≠ other) (hlt : peer.startTs < entry.commitTs)
    (hmem : entry ∈ m.commitHistory ∨ entry = ⟨txn.writeSet, commitTs⟩) :
    entry ∈ (m.promote id commitTs).commitHistory := by
  have hstays : (m.removeSsiTxn id).ssiContexts[other]? = some peer := by
    have h := getSsiTxn_removeSsiTxn m id other
    rw [if_neg hne, hpeer] at h
    exact h
  have hwatermark := historyWatermark_le hstays
  simp only [promote, htxn]
  apply mem_garbageCollect _ (Nat.lt_of_le_of_lt hwatermark hlt)
  simpa [removeSsiTxn] using hmem

theorem commitAt_cases (id commitTs : ℕ) :
    (∃ err, m.commitAt id commitTs = (.error err, m)) ∨
      ∃ handle, m.transactions[id]? = some handle ∧ handle.state = .active ∧
        m.commitAt id commitTs = (.ok { handle with state := .committed },
          (m.setState id .committed).promote id commitTs) := by
  unfold commitAt
  split
  · exact .inl ⟨_, rfl⟩
  · rename_i handle hhandle
    split
    · exact .inl ⟨_, rfl⟩
    · rename_i hactive
      exact .inr ⟨handle, hhandle, not_not.mp hactive, rfl⟩

end TxManager

end HatP
