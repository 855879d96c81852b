import HatP.Wal.FailedAppend

/-!
# Opening a torn log

Opening a log cuts its torn tail off at the end of the last complete frame.
The complete frames of an interrupted transaction stay in the file, and only
the ids that are handed out later keep them apart from the commits to come.
-/

namespace HatP

open FramedLog PendingWrite Transition
open Std (ExtTreeMap)

/-! ## The engine on a torn log -/

def Wal.openFile (bytes : Bytes) : Except EngineError Bytes := do
  let (_, validBytes) ← Wal.recover bytes
  return bytes.take validBytes

/-- An opened engine as far as transaction ids go: the log, the counter, the ids
handed out and the commits since the log was opened. -/
structure TailEngine where
  wal : Bytes
  nextTxId : ℕ
  handedOut : List ℕ
  commits : List PendingWrite

/-- Mutations whose keys and values are shorter than the length that stands for
an absent value. -/
structure Payload where
  mutations : List Mutation
  inRange : ∀ m ∈ mutations, m.key.length < Wal.valueNone ∧ (m.value.getD []).length < Wal.valueNone

inductive TailOp
  | reserveTxId
  | writeWithTx (txId : ℕ) (payload : Payload)
  | write (payload : Payload)

namespace TailEngine

def opened (sstMaxCommit : ℕ) (bytes : Bytes) : Except EngineError TailEngine := do
  let (records, _) ← Wal.recover bytes
  let replayed ← (Replay.start sstMaxCommit).run records
  let wal ← Wal.openFile bytes
  return ⟨wal, min (replayed.highestTx + 1) maxU64, [], []⟩

def allocated (s : TailEngine) : TailEngine :=
  { s with
    nextTxId := (allocTxId s.nextTxId).2
    handedOut := s.handedOut ++ [(allocTxId s.nextTxId).1] }

def writeWithTx (s : TailEngine) (txId : ℕ) (mutations : List Mutation) : TailEngine :=
  if h : mutations ≠ [] ∧ txId ≠ 0 then
    let s := { s with nextTxId := max s.nextTxId (min (txId + 1) maxU64) }
    match Wal.encodeMutations txId mutations with
    | .error _ => s
    | .ok bytes =>
      { s with wal := s.wal ++ bytes, commits := s.commits ++ [⟨txId, mutations, h.2, h.1⟩] }
  else s

/-- Only ids that the engine handed out are used. -/
def step (s : TailEngine) : TailOp → Option TailEngine
  | .reserveTxId => some s.allocated
  | .writeWithTx txId payload =>
    if txId ∈ s.handedOut then some (s.writeWithTx txId payload.mutations) else none
  | .write payload =>
    if payload.mutations = [] then some s
    else some (s.allocated.writeWithTx (allocTxId s.nextTxId).1 payload.mutations)

def commitId (s : TailEngine) : TailOp → Option ℕ
  | .reserveTxId => none
  | .writeWithTx txId payload => if payload.mutations = [] then none else some txId
  | .write payload => if payload.mutations = [] then none else some (allocTxId s.nextTxId).1

/-- A restart finds exactly these commits and the ones since, in order, and
installs nothing else. -/
def RecoversExactly (sstMaxCommit : ℕ) (before : List PendingWrite) (s : TailEngine) : Prop :=
  ∃ records valid replayed, Wal.recover s.wal = .ok (records, valid) ∧
    (Replay.start sstMaxCommit).run records = .ok replayed ∧
    replayed.applied = (before ++ s.commits).map group ∧
    replayed.memtable =
      ((before ++ s.commits).foldl Replay.install (Replay.start sstMaxCommit)).memtable

end TailEngine

/-- The frames of the commits that a cut after `n` bytes leaves whole. -/
def wholeFrames (commits : List PendingWrite) (n : ℕ) : List WalRecord :=
  complete Wal.frameBytes n (commits.flatMap frames)

def orphans (commits : List PendingWrite) (n : ℕ) : List WalRecord :=
  (wholeFrames commits n).drop ((complete bytes n commits).flatMap frames).length

/-- The call does not commit under the id of an interrupted transaction. -/
def TailEngine.KeepsApart (commits : List PendingWrite) (n : ℕ) (s : TailEngine) (op : TailOp) :
    Prop :=
  ∀ txId, s.commitId op = some txId → ∀ r ∈ orphans commits n, r.txId ≠ txId

/-- The log cut to its first `n` bytes can be recovered and opened, opening it
leaves the complete frames, and from then on a restart always finds the commits
that are complete in these bytes followed by the later ones. -/
def RecoversTorn (sstMaxCommit : ℕ) (commits : List PendingWrite) (n : ℕ) (ops : List TailOp) :
    Prop :=
  let pre := (commits.flatMap bytes).take n
  let frames := wholeFrames commits n
  Wal.recover pre = .ok (frames, (frames.flatMap Wal.frameBytes).length) ∧
    Wal.openFile pre = .ok (frames.flatMap Wal.frameBytes) ∧
    ∃ s, TailEngine.opened sstMaxCommit pre = .ok s ∧
      Along TailEngine.step (TailEngine.RecoversExactly sstMaxCommit
        (complete bytes n commits)) s ops

/-! ## Replaying interrupted transactions -/

namespace Replay

variable {st st' : Replay}

theorem highestTx_step {record : WalRecord} (hstep : st.step record = .ok st') :
    st'.highestTx = max st.highestTx record.txId := by
  rcases step_cases hstep with ⟨-, rfl⟩ | ⟨-, -, rfl⟩ | ⟨_, _, -, -, -, rfl⟩ | ⟨-, rfl⟩ <;> rfl

/-- No id of the log is above the highest one, and that one is not above a bound
on them all. -/
theorem highestTx_run {records : List WalRecord} (hrun : st.run records = .ok st') :
    (∀ r ∈ records, r.txId ≤ st'.highestTx) ∧ st.highestTx ≤ st'.highestTx ∧
      ∀ bound, st.highestTx ≤ bound → (∀ r ∈ records, r.txId ≤ bound) → st'.highestTx ≤ bound := by
  induction records generalizing st with
  | nil =>
    cases hrun
    exact ⟨fun _ h ↦ (by cases h), le_rfl, fun _ h _ ↦ h⟩
  | cons r records ih =>
    rw [run, List.foldlM_cons] at hrun
    obtain ⟨next, hstep, hrest⟩ := Fallible.bind_eq_ok hrun
    obtain ⟨hids, hmono, hbound⟩ := ih hrest
    have hnext := highestTx_step hstep
    rw [hnext] at hmono hbound
    refine ⟨List.forall_mem_cons.mpr ⟨(le_max_right _ _).trans hmono, hids⟩,
      (le_max_left _ _).trans hmono, fun bound hst hall ↦ ?_⟩
    obtain ⟨hr, hall⟩ := List.forall_mem_cons.mp hall
    exact hbound bound (max_le hst hr) hall

theorem pending_foldl_install (st : Replay) (commits : List PendingWrite) :
    (commits.foldl install st).pending = st.pending := by
  induction commits generalizing st with
  | nil => rfl
  | cons w commits ih => exact ih (st.install w)

theorem memtable_foldl_install_congr {st st' : Replay} (hmemtable : st.memtable = st'.memtable)
    (hnext : st.nextCommitTs = st'.nextCommitTs) (commits : List PendingWrite) :
    (commits.foldl install st).memtable = (commits.foldl install st').memtable := by
  induction commits generalizing st st' with
  | nil => exact hmemtable
  | cons w commits ih =>
    apply ih
    · simp [install, hmemtable, hnext]
    · simp [install, hnext]

theorem applied_run_frames_of_pending {w : PendingWrite} {left : List WalRecord}
    (hleft : st.pending[w.txId]? = some left) (hrun : st.run w.frames = .ok st') :
    st'.applied =
      st.applied ++ [(w.txId, left ++ w.mutations.map (Mutation.walRecord w.txId))] := by
  rw [frames, encodeMutations, run_append, run_walRecords st w.txId w.nonempty,
    hleft, Option.getD_some] at hrun
  simp only [Except.bind, run, List.foldlM_cons, List.foldlM_nil, step,
    ExtTreeMap.getElem?_insert_self] at hrun
  cases happly : st.memtable.applyRecordsBatch
      (left ++ w.mutations.map (Mutation.walRecord w.txId)) st.nextCommitTs with
  | error err =>
    rw [happly] at hrun
    cases hrun
  | ok memtable =>
    rw [happly] at hrun
    cases hrun
    rfl

end Replay

section Torn

variable (commits : List PendingWrite) (n : ℕ)

theorem wholeFrames_eq :
    wholeFrames commits n = (complete bytes n commits).flatMap frames ++ orphans commits n ∧
      (orphans commits n = [] ∨ ∃ w ∈ commits, ∃ k < w.frames.length,
        orphans commits n = w.frames.take k) := by
  obtain ⟨rest, hsplit, hrest⟩ := complete_flatMap Wal.frameBytes frames n commits
  have horphans : orphans commits n = rest := by
    rw [orphans, wholeFrames, hsplit]
    exact List.drop_left
  rw [horphans]
  exact ⟨hsplit, hrest⟩

/-- Replaying the complete frames installs the complete commits and leaves the
records of the interrupted one behind. -/
theorem exists_replay_complete (sstMaxCommit : ℕ) :
    ∃ st, (Replay.start sstMaxCommit).run (wholeFrames commits n) = .ok st ∧
      (let installed := (complete bytes n commits).foldl Replay.install
        (Replay.start sstMaxCommit)
      st.applied = installed.applied ∧ st.memtable = installed.memtable ∧
        st.nextCommitTs = installed.nextCommitTs) ∧
      (∀ txId, (∀ r ∈ orphans commits n, r.txId ≠ txId) → st.pending[txId]? = none) ∧
      ∀ r ∈ orphans commits n, ∃ left, left ≠ [] ∧ st.pending[r.txId]? = some left := by
  obtain ⟨hsplit, hrest⟩ := wholeFrames_eq commits n
  have hempty : ∀ txId : ℕ, (Replay.start sstMaxCommit).pending[txId]? = none :=
    fun _ ↦ ExtTreeMap.getElem?_empty
  have hcommits := (Replay.start sstMaxCommit).run_commits
    (complete bytes n commits) fun w _ ↦ hempty w.txId
  have hpending := (Replay.start sstMaxCommit).pending_foldl_install
    (complete bytes n commits)
  rw [hsplit, Replay.run_append, hcommits]
  rcases hrest with hnone | ⟨w, -, k, hk, hsome⟩
  · rw [hnone]
    refine ⟨_, rfl, ⟨rfl, rfl, rfl⟩, fun txId _ ↦ ?_, fun _ h ↦ by cases h⟩
    rw [hpending]
    exact hempty txId
  · rw [hsome, Replay.take_frames w hk]
    by_cases hnil : w.mutations.take k = []
    · rw [hnil]
      refine ⟨_, rfl, ⟨rfl, rfl, rfl⟩, fun txId _ ↦ ?_, fun _ h ↦ by cases h⟩
      rw [hpending]
      exact hempty txId
    · refine ⟨_, Replay.run_walRecords _ w.txId hnil, ⟨rfl, rfl, rfl⟩, fun txId hne ↦ ?_,
        fun r hr ↦ ?_⟩
      · obtain ⟨m, hm⟩ := List.exists_mem_of_ne_nil _ hnil
        have hid : w.txId ≠ txId := by
          have hrecord := hne _ (List.mem_map_of_mem hm)
          cases m <;> exact hrecord
        rw [ExtTreeMap.getElem?_insert, if_neg (by simpa using hid), hpending]
        exact hempty txId
      · obtain ⟨m, -, rfl⟩ := List.mem_map.mp hr
        have hid : (m.walRecord w.txId).txId = w.txId := by cases m <;> rfl
        rw [hid, hpending, hempty, ExtTreeMap.getElem?_insert_self]
        exact ⟨_, by simpa using hnil, rfl⟩

end Torn

/-! ## Calls -/

theorem Payload.inRange_write (payload : Payload) {txId : ℕ} (hid : txId ≠ 0 ∧ txId < 2 ^ 64)
    (hne : payload.mutations ≠ []) :
    (⟨txId, payload.mutations, hid.1, hne⟩ : PendingWrite).InRange :=
  ⟨hid.2, fun m hm ↦ (payload.inRange m hm).1, fun m hm ↦ (payload.inRange m hm).2⟩

theorem flatMap_frames_concat (first : List WalRecord) (later : List PendingWrite)
    (w : PendingWrite) :
    (first ++ later.flatMap frames).flatMap Wal.frameBytes ++ w.bytes =
      (first ++ (later ++ [w]).flatMap frames).flatMap Wal.frameBytes := by
  simp [bytes]

namespace TailEngine

variable {s t : TailEngine} {op : TailOp}

/-- Ids and counter are `u64`s, and no id is zero. -/
structure Counters (s : TailEngine) : Prop where
  next : s.nextTxId < 2 ^ 64
  handedOut : ∀ txId ∈ s.handedOut, txId ≠ 0 ∧ txId < 2 ^ 64

theorem allocTxId_bounds {next : ℕ} (h : next < 2 ^ 64) :
    ((allocTxId next).1 ≠ 0 ∧ (allocTxId next).1 < 2 ^ 64) ∧ (allocTxId next).2 < 2 ^ 64 := by
  refine ⟨?_, Nat.mod_lt _ (by decide)⟩
  simp only [allocTxId]
  split_ifs with hzero
  · decide
  · exact ⟨hzero, h⟩

theorem Counters.allocated (h : s.Counters) : s.allocated.Counters where
  next := (allocTxId_bounds h.next).2
  handedOut txId hid := by
    rcases List.mem_append.mp hid with hid | hid
    · exact h.handedOut txId hid
    · rw [List.mem_singleton.mp hid]
      exact (allocTxId_bounds h.next).1

theorem writeWithTx_nil (txId : ℕ) : s.writeWithTx txId [] = s := by
  simp [writeWithTx]

theorem writeWithTx_eq {w : PendingWrite} (hw : w.InRange) :
    s.writeWithTx w.txId w.mutations =
      { s with
        wal := s.wal ++ w.bytes
        nextTxId := max s.nextTxId (min (w.txId + 1) maxU64)
        commits := s.commits ++ [w] } := by
  rw [writeWithTx, dif_pos ⟨w.nonempty, w.txId_ne⟩, hw.encodeMutations]

theorem Counters.writeWithTx (h : s.Counters) {w : PendingWrite} (hw : w.InRange) :
    (s.writeWithTx w.txId w.mutations).Counters := by
  rw [writeWithTx_eq hw]
  refine ⟨max_lt h.next ?_, h.handedOut⟩
  exact lt_of_le_of_lt (min_le_right _ _) (by decide)

theorem step_cases (h : s.Counters) (hstep : s.step op = some t) :
    t.Counters ∧ ((s.commitId op = none ∧ t.wal = s.wal ∧ t.commits = s.commits) ∨
      ∃ w : PendingWrite, w.InRange ∧ s.commitId op = some w.txId ∧ t.wal = s.wal ++ w.bytes ∧
        t.commits = s.commits ++ [w]) := by
  cases op with
  | reserveTxId =>
    cases hstep
    exact ⟨h.allocated, .inl ⟨rfl, rfl, rfl⟩⟩
  | writeWithTx txId payload =>
    obtain ⟨hmem, hresult⟩ := Option.ite_none_right_eq_some.mp hstep
    by_cases hne : payload.mutations = []
    · rw [hne, writeWithTx_nil] at hresult
      cases hresult
      exact ⟨h, .inl ⟨if_pos hne, rfl, rfl⟩⟩
    · have hw := payload.inRange_write (h.handedOut txId hmem) hne
      have hcounters := h.writeWithTx hw
      rw [writeWithTx_eq hw] at hcounters hresult
      cases hresult
      exact ⟨hcounters, .inr ⟨_, hw, if_neg hne, rfl, rfl⟩⟩
  | write payload =>
    rw [step] at hstep
    split_ifs at hstep with hne
    · cases hstep
      exact ⟨h, .inl ⟨if_pos hne, rfl, rfl⟩⟩
    · have hw := payload.inRange_write (allocTxId_bounds h.next).1 hne
      have hcounters := h.allocated.writeWithTx hw
      rw [writeWithTx_eq hw] at hcounters hstep
      cases hstep
      exact ⟨hcounters, .inr ⟨_, hw, if_neg hne, rfl, rfl⟩⟩

/-! ## Recovery along a run -/

/-- The log holds the frames that the cut left and the commits since, which all
keep apart from the interrupted transaction. -/
structure Inv (commits : List PendingWrite) (n : ℕ) (s : TailEngine) : Prop where
  counters : s.Counters
  wal : s.wal = (wholeFrames commits n ++ s.commits.flatMap frames).flatMap Wal.frameBytes
  inRange : ∀ w ∈ s.commits, w.InRange
  apart : ∀ w ∈ s.commits, ∀ r ∈ orphans commits n, r.txId ≠ w.txId

variable {commits : List PendingWrite} {n sstMaxCommit : ℕ}

theorem Inv.step (h : Inv commits n s) (hapart : s.KeepsApart commits n op)
    (hstep : s.step op = some t) : Inv commits n t := by
  obtain ⟨hcounters, ⟨-, hwal, hcommits⟩ | ⟨w, hw, hid, hwal, hcommits⟩⟩ :=
    step_cases h.counters hstep
  · exact ⟨hcounters, by rw [hwal, hcommits, h.wal], hcommits ▸ h.inRange, hcommits ▸ h.apart⟩
  · refine ⟨hcounters, ?_, ?_, ?_⟩
    · rw [hwal, h.wal, hcommits, flatMap_frames_concat]
    · rw [hcommits]
      exact List.forall_mem_append.mpr ⟨h.inRange, List.forall_mem_singleton.mpr hw⟩
    · rw [hcommits]
      exact List.forall_mem_append.mpr ⟨h.apart, List.forall_mem_singleton.mpr (hapart _ hid)⟩

section Recover

variable (hrange : ∀ w ∈ commits, w.InRange)

include hrange

theorem recover_later {later : List PendingWrite} (hlater : ∀ w ∈ later, w.InRange) :
    Wal.recover ((wholeFrames commits n ++ later.flatMap frames).flatMap Wal.frameBytes) =
      .ok (wholeFrames commits n ++ later.flatMap frames,
        ((wholeFrames commits n ++ later.flatMap frames).flatMap Wal.frameBytes).length) := by
  apply Wal.recover_flatMap
  intro r hr
  rcases List.mem_append.mp hr with hr | hr
  · exact inRange_flatMap_frames hrange r ((prefix_complete n _).subset hr)
  · exact inRange_flatMap_frames hlater r hr

theorem Inv.recoversExactly (h : Inv commits n s) :
    s.RecoversExactly sstMaxCommit (complete bytes n commits) := by
  obtain ⟨st, hrun, ⟨happlied, hmemtable, hnext⟩, hfresh, -⟩ :=
    exists_replay_complete commits n sstMaxCommit
  have hlater := st.run_commits s.commits fun w hw ↦ hfresh w.txId (h.apart w hw)
  refine ⟨_, _, s.commits.foldl Replay.install st, h.wal ▸ recover_later hrange h.inRange,
    ?_, ?_, ?_⟩
  · rw [Replay.run_append, hrun]
    exact hlater
  · rw [Replay.applied_foldl_install, happlied, Replay.applied_foldl_install, List.map_append]
    rfl
  · rw [List.foldl_append]
    exact Replay.memtable_foldl_install_congr hmemtable hnext s.commits

/-- A commit under the id of the interrupted transaction comes back with its
records. -/
theorem Inv.keepsApart (h : Inv commits n s) (hstep : s.step op = some t)
    (hexact : t.RecoversExactly sstMaxCommit (complete bytes n commits)) :
    s.KeepsApart commits n op := by
  intro txId hid r hr heq
  obtain ⟨-, ⟨hnone, -⟩ | ⟨w, hw, hsome, hwal, hcommits⟩⟩ := step_cases h.counters hstep
  · rw [hnone] at hid
    cases hid
  cases hsome.symm.trans hid
  obtain ⟨st, hrun, ⟨happlied, -⟩, hfresh, hleft⟩ := exists_replay_complete commits n sstMaxCommit
  obtain ⟨left, hne, hpending⟩ := hleft r hr
  obtain ⟨records, valid, replayed, hrecover, hreplay, hgroups, -⟩ := hexact
  have hlater : ∀ w' ∈ s.commits ++ [w], w'.InRange :=
    List.forall_mem_append.mpr ⟨h.inRange, List.forall_mem_singleton.mpr hw⟩
  have hfile : t.wal =
      (wholeFrames commits n ++ (s.commits ++ [w]).flatMap frames).flatMap Wal.frameBytes := by
    rw [hwal, h.wal, flatMap_frames_concat]
  rw [hfile, recover_later hrange hlater] at hrecover
  cases hrecover
  rw [Replay.run_append, hrun, List.flatMap_append, List.flatMap_singleton] at hreplay
  have hsplit : ((st.run (s.commits.flatMap frames)).bind fun st ↦
      st.run w.frames) = .ok replayed := by
    rw [← Replay.run_append]
    exact hreplay
  rw [st.run_commits s.commits fun w' hw' ↦ hfresh w'.txId (h.apart w' hw')] at hsplit
  have hmerged := Replay.applied_run_frames_of_pending
    (by rw [Replay.pending_foldl_install, ← heq, hpending]) hsplit
  rw [Replay.applied_foldl_install, happlied, Replay.applied_foldl_install, hgroups, hcommits,
    ← List.append_assoc, List.map_append, List.map_append] at hmerged
  have hlast := List.append_inj_right' hmerged rfl
  simp [group, hne] at hlast

end Recover

end TailEngine

/-! ## Opening the torn log -/

theorem Wal.recover_short {bytes : Bytes} (hpos : 0 < bytes.length) (hshort : bytes.length < 4) :
    ∃ err, Wal.recover bytes = .error err := by
  have hne : bytes ≠ [] := List.ne_nil_of_length_pos hpos
  have hmagic : bytes.take 4 ≠ Wal.magicWal1 := by
    intro heq
    have hlen := congrArg List.length heq
    rw [List.take_of_length_le hshort.le] at hlen
    exact absurd hlen (Nat.ne_of_lt hshort)
  rw [Wal.recover, if_neg hne, if_pos hmagic]
  exact ⟨_, rfl⟩

section Open

variable {commits : List PendingWrite} {n : ℕ} (hrange : ∀ w ∈ commits, w.InRange)
  (hlen : ((commits.flatMap bytes).take n).length = 0 ∨
    4 ≤ ((commits.flatMap bytes).take n).length)

include hrange hlen

theorem recover_torn :
    Wal.recover ((commits.flatMap bytes).take n) =
      .ok (wholeFrames commits n, ((wholeFrames commits n).flatMap Wal.frameBytes).length) := by
  have hrecords := inRange_flatMap_frames hrange
  rcases hlen with hzero | hfour
  · have hall := Wal.decodeAll_take n hrecords
    rw [← flatMap_bytes, List.eq_nil_of_length_eq_zero hzero] at hall
    rw [List.eq_nil_of_length_eq_zero hzero, wholeFrames, ← hall]
    rfl
  · rw [flatMap_bytes]
    refine Wal.recover_take (.inr ?_) hrecords
    rw [List.length_take] at hfour
    exact hfour.trans (min_le_left _ _)

theorem openFile_torn :
    Wal.openFile ((commits.flatMap bytes).take n) =
      .ok ((wholeFrames commits n).flatMap Wal.frameBytes) := by
  rw [Wal.openFile, recover_torn hrange hlen]
  change Except.ok (((commits.flatMap bytes).take n).take _) = _
  rw [flatMap_bytes, take_flatMap, wholeFrames, List.take_left]

theorem opened_torn (sstMaxCommit : ℕ) :
    ∃ s st, TailEngine.opened sstMaxCommit ((commits.flatMap bytes).take n) = .ok s ∧
      (Replay.start sstMaxCommit).run (wholeFrames commits n) = .ok st ∧
      s.nextTxId = min (st.highestTx + 1) maxU64 ∧ (s.handedOut = [] ∧ s.commits = []) ∧
      TailEngine.Inv commits n s := by
  obtain ⟨st, hrun, -⟩ := exists_replay_complete commits n sstMaxCommit
  have hopened : TailEngine.opened sstMaxCommit ((commits.flatMap bytes).take n) =
      .ok ⟨(wholeFrames commits n).flatMap Wal.frameBytes, min (st.highestTx + 1) maxU64, [],
        []⟩ := by
    rw [TailEngine.opened, recover_torn hrange hlen, openFile_torn hrange hlen]
    change ((Replay.start sstMaxCommit).run _ >>= _) = _
    rw [hrun]
    rfl
  refine ⟨_, st, hopened, hrun, rfl, ⟨rfl, rfl⟩, ⟨⟨?_, ?_⟩, ?_, ?_, ?_⟩⟩
  · exact lt_of_le_of_lt (min_le_right _ _) (by decide)
  · exact fun _ h ↦ by cases h
  · rw [List.flatMap_nil, List.append_nil]
  · exact fun _ h ↦ by cases h
  · exact fun _ h ↦ by cases h

end Open

/-- For every log of commits, every cut and all later calls: the log is
recovered and opened, and every later restart finds exactly the complete
commits and the later ones, exactly when the cut leaves nothing or at least four
bytes and no later commit takes the id of the interrupted transaction. -/
theorem recoversTorn_iff (sstMaxCommit : ℕ) (commits : List PendingWrite)
    (hrange : ∀ w ∈ commits, w.InRange) (n : ℕ) (ops : List TailOp) :
    RecoversTorn sstMaxCommit commits n ops ↔
      (((commits.flatMap bytes).take n).length = 0 ∨
        4 ≤ ((commits.flatMap bytes).take n).length) ∧
      ∀ s, TailEngine.opened sstMaxCommit ((commits.flatMap bytes).take n) = .ok s →
        StepsMeet TailEngine.step (TailEngine.KeepsApart commits n) s ops := by
  have hiff : ∀ s, TailEngine.Inv commits n s →
      (Along TailEngine.step (TailEngine.RecoversExactly sstMaxCommit
        (complete bytes n commits)) s ops ↔
      StepsMeet TailEngine.step (TailEngine.KeepsApart commits n) s ops) :=
    fun s hinv ↦ along_iff_stepsMeet (I := TailEngine.Inv commits n)
      (fun _ _ _ h hapart hstep ↦ h.step hapart hstep) (fun _ h ↦ h.recoversExactly hrange)
      (fun _ _ _ h hstep hexact ↦ h.keepsApart hrange hstep hexact) hinv
  constructor
  · rintro ⟨hrecover, -, s, hopened, halong⟩
    have hlen : ((commits.flatMap bytes).take n).length = 0 ∨
        4 ≤ ((commits.flatMap bytes).take n).length := by
      by_contra hshort
      rw [not_or] at hshort
      obtain ⟨err, herr⟩ := Wal.recover_short (Nat.pos_of_ne_zero hshort.1)
        (Nat.lt_of_not_le hshort.2)
      rw [herr] at hrecover
      cases hrecover
    refine ⟨hlen, fun found hfound ↦ ?_⟩
    obtain ⟨s', -, hs', -, -, -, hinv⟩ := opened_torn hrange hlen sstMaxCommit
    cases hfound.symm.trans hs'
    cases hfound.symm.trans hopened
    exact (hiff s hinv).mp halong
  · rintro ⟨hlen, hmeet⟩
    obtain ⟨s, -, hs, -, -, -, hinv⟩ := opened_torn hrange hlen sstMaxCommit
    exact ⟨recover_torn hrange hlen, openFile_torn hrange hlen, s, hs,
      (hiff s hinv).mpr (hmeet s hs)⟩

/-! ## Ids that do not run out -/

namespace TailEngine

/-- All ids that were handed out and the next `calls` ones are above `top`. -/
structure Room (top calls : ℕ) (s : TailEngine) : Prop where
  next : top < s.nextTxId
  calls : s.nextTxId + calls < 2 ^ 64
  handedOut : ∀ txId ∈ s.handedOut, top < txId ∧ txId < s.nextTxId

variable {s t : TailEngine} {top calls : ℕ}

theorem Room.allocTxId_eq (h : s.Room top (calls + 1)) :
    allocTxId s.nextTxId = (s.nextTxId, s.nextTxId + 1) := by
  have hroom := h.calls
  exact HatP.allocTxId_eq (Nat.zero_lt_of_lt h.next) (by rw [maxU64]; omega)

theorem Room.allocated (h : s.Room top (calls + 1)) : s.allocated.Room top calls := by
  have hroom := h.calls
  have hnext := h.next
  rw [TailEngine.allocated, h.allocTxId_eq]
  refine ⟨by dsimp only; omega, by dsimp only; omega, fun txId hid ↦ ?_⟩
  rcases List.mem_append.mp hid with hid | hid
  · exact ⟨(h.handedOut txId hid).1, (h.handedOut txId hid).2.trans (Nat.lt_succ_self _)⟩
  · rw [List.mem_singleton.mp hid]
    exact ⟨hnext, Nat.lt_succ_self _⟩

theorem Room.writeWithTx (h : s.Room top calls) {txId : ℕ} (hid : txId < s.nextTxId)
    (mutations : List Mutation) : (s.writeWithTx txId mutations).Room top calls := by
  have hmax : max s.nextTxId (min (txId + 1) maxU64) = s.nextTxId :=
    max_eq_left ((min_le_left _ _).trans hid)
  have hsame : (s.writeWithTx txId mutations).nextTxId = s.nextTxId ∧
      (s.writeWithTx txId mutations).handedOut = s.handedOut := by
    unfold TailEngine.writeWithTx
    split_ifs
    · dsimp only
      split
      · exact ⟨hmax, rfl⟩
      · exact ⟨hmax, rfl⟩
    · exact ⟨rfl, rfl⟩
  exact ⟨hsame.1 ▸ h.next, hsame.1 ▸ h.calls, hsame.1 ▸ hsame.2 ▸ h.handedOut⟩

theorem Room.fewer (h : s.Room top (calls + 1)) : s.Room top calls :=
  ⟨h.next, (Nat.lt_succ_self _).trans h.calls, h.handedOut⟩

theorem Room.step (h : s.Room top (calls + 1)) {op : TailOp} (hstep : s.step op = some t) :
    t.Room top calls ∧ ∀ txId, s.commitId op = some txId → top < txId := by
  cases op with
  | reserveTxId =>
    cases hstep
    exact ⟨h.allocated, fun txId hid ↦ by cases hid⟩
  | writeWithTx txId payload =>
    obtain ⟨hmem, ⟨⟩⟩ := Option.ite_none_right_eq_some.mp hstep
    refine ⟨h.fewer.writeWithTx (h.handedOut txId hmem).2 _, fun other hid ↦ ?_⟩
    rw [commitId] at hid
    split_ifs at hid
    cases hid
    exact (h.handedOut txId hmem).1
  | write payload =>
    rw [TailEngine.step, h.allocTxId_eq] at hstep
    rw [commitId, h.allocTxId_eq]
    split_ifs at hstep with hne
    · cases hstep
      exact ⟨h.fewer, fun txId hid ↦ by rw [if_pos hne] at hid; cases hid⟩
    · cases hstep
      refine ⟨h.allocated.writeWithTx ?_ _, fun txId hid ↦ ?_⟩
      · rw [TailEngine.allocated, h.allocTxId_eq]
        exact Nat.lt_succ_self _
      · rw [if_neg hne] at hid
        cases hid
        exact h.next

theorem Room.stepsMeet {commits : List PendingWrite} {n : ℕ}
    (htop : ∀ r ∈ orphans commits n, r.txId ≤ top) {ops : List TailOp} (h : s.Room top ops.length) :
    StepsMeet TailEngine.step (KeepsApart commits n) s ops := by
  induction ops generalizing s with
  | nil => trivial
  | cons op ops ih =>
    intro t hstep
    obtain ⟨hroom, hids⟩ := h.step hstep
    refine ⟨fun txId hid r hr ↦ ?_, ih hroom⟩
    exact ((htop r hr).trans_lt (hids txId hid)).ne

end TailEngine

theorem PendingWrite.txId_of_mem_frames {w : PendingWrite} {r : WalRecord} (hr : r ∈ w.frames) :
    r.txId = w.txId := by
  rcases List.mem_append.mp hr with hr | hr
  · obtain ⟨m, -, rfl⟩ := List.mem_map.mp hr
    cases m <;> rfl
  · rw [List.mem_singleton.mp hr]

/-- The ids of the log leave room for the calls to come, so that none of them
commits under the id of the interrupted transaction. -/
theorem stepsMeet_keepsApart {sstMaxCommit : ℕ} {commits : List PendingWrite}
    (hrange : ∀ w ∈ commits, w.InRange) {n : ℕ}
    (hlen : ((commits.flatMap bytes).take n).length = 0 ∨
      4 ≤ ((commits.flatMap bytes).take n).length)
    {ops : List TailOp} {bound : ℕ} (hbound : ∀ w ∈ commits, w.txId ≤ bound)
    (hroom : bound + ops.length + 1 < 2 ^ 64) {s : TailEngine}
    (hs : TailEngine.opened sstMaxCommit ((commits.flatMap bytes).take n) = .ok s) :
    StepsMeet TailEngine.step (TailEngine.KeepsApart commits n) s ops := by
  obtain ⟨s', st, hs', hrun, hnext, hids, -⟩ := opened_torn hrange hlen sstMaxCommit
  cases hs.symm.trans hs'
  obtain ⟨hhighest, -, hleast⟩ := Replay.highestTx_run hrun
  have hsub : orphans commits n ⊆ wholeFrames commits n := List.drop_subset _ _
  have hids' : ∀ r ∈ commits.flatMap frames, r.txId ≤ bound := by
    intro r hr
    obtain ⟨w, hw, hmem⟩ := List.mem_flatMap.mp hr
    rw [txId_of_mem_frames hmem]
    exact hbound w hw
  have htop : st.highestTx ≤ bound := by
    refine hleast bound (Nat.zero_le _) fun r hr ↦ ?_
    exact hids' r ((prefix_complete n _).subset hr)
  have hcounter : s.nextTxId = st.highestTx + 1 := by
    rw [hnext, min_eq_left]
    rw [maxU64]
    omega
  have hroom : s.Room st.highestTx ops.length := by
    refine ⟨?_, ?_, ?_⟩
    · rw [hcounter]
      exact Nat.lt_succ_self _
    · rw [hcounter]
      omega
    · rw [hids.1]
      exact fun _ h ↦ by cases h
  exact hroom.stepsMeet fun r hr ↦ hhighest r (hsub hr)

/-- The cut falls into the commit frame of the second commit, and three calls
follow. -/
theorem recoversTorn_iff_secondCommit :
    (orphans [AppendLog.firstWrite, AppendLog.secondWrite] 90).length = 1 ∧
      RecoversTorn 0 [AppendLog.firstWrite, AppendLog.secondWrite] 90
        [.write ⟨[.put [108] [3]], by decide⟩, .reserveTxId,
          .writeWithTx 4 ⟨[.delete [107]], by decide⟩] := by
  have hall : ∀ w ∈ [AppendLog.firstWrite, AppendLog.secondWrite], w.txId ≤ 2 ∧
      (∀ m ∈ w.mutations, m.key.length < Wal.valueNone) ∧
      ∀ m ∈ w.mutations, (m.value.getD []).length < Wal.valueNone := by decide
  have hrange : ∀ w ∈ [AppendLog.firstWrite, AppendLog.secondWrite], w.InRange := fun w hw ↦
    ⟨lt_of_le_of_lt (hall w hw).1 (by decide), (hall w hw).2.1, (hall w hw).2.2⟩
  refine ⟨by decide, (recoversTorn_iff 0 _ hrange 90 _).mpr ⟨.inr (by decide), fun s hs ↦ ?_⟩⟩
  exact stepsMeet_keepsApart hrange (.inr (by decide)) (fun w hw ↦ (hall w hw).1) (by decide) hs

def lastIdWrite : PendingWrite :=
  ⟨2 ^ 64 - 1, [.put [107] [9]], by decide, List.cons_ne_nil _ _⟩

def nextWrite : PendingWrite :=
  ⟨2 ^ 64 - 1, [.put [108] [3]], by decide, List.cons_ne_nil _ _⟩

/-- Two bytes of a log cannot be opened.  And when the interrupted transaction
has the last id, the next commit gets the same id, and after a restart the value
that was never committed is there. -/
theorem torn_log_fails :
    (∃ err, Wal.recover (([AppendLog.firstWrite].flatMap bytes).take 2) =
      .error err) ∧
    (∃ err, Wal.openFile (([AppendLog.firstWrite].flatMap bytes).take 2) =
      .error err) ∧
    ∃ s t records valid replayed,
      TailEngine.opened 0 (([lastIdWrite].flatMap bytes).take 30) = .ok s ∧
      s.step (.write ⟨nextWrite.mutations, by decide⟩) = some t ∧
      Wal.recover t.wal = .ok (records, valid) ∧ (Replay.start 0).run records = .ok replayed ∧
      (replayed.memtable.get [107] 1).map VersionedValue.value = some (some [9]) ∧
      ¬t.RecoversExactly 0 (complete bytes 30 [lastIdWrite]) := by
  have hlast : ∀ w ∈ [lastIdWrite], w.InRange :=
    List.forall_mem_singleton.mpr ⟨by decide, by decide, by decide⟩
  have hnext : nextWrite.InRange := ⟨by decide, by decide, by decide⟩
  have hwhole : wholeFrames [lastIdWrite] 30 = lastIdWrite.frames.take 1 := rfl
  have hlen : 4 ≤ (([lastIdWrite].flatMap bytes).take 30).length := by decide
  obtain ⟨s, st, hs, hrun, hcounter, ⟨-, hcommits⟩, hinv⟩ := opened_torn hlast (.inr hlen) 0
  rw [hwhole] at hrun
  cases hrun
  have hid : (allocTxId s.nextTxId).1 = nextWrite.txId := by
    rw [hcounter]
    rfl
  have hstep : s.step (.write ⟨nextWrite.mutations, by decide⟩) =
      some (s.allocated.writeWithTx nextWrite.txId nextWrite.mutations) := by
    rw [← hid]
    rfl
  have hwal : (s.allocated.writeWithTx nextWrite.txId nextWrite.mutations).wal =
      (wholeFrames [lastIdWrite] 30 ++ [nextWrite].flatMap frames).flatMap Wal.frameBytes := by
    have hold := hinv.wal
    rw [hcommits] at hold
    have hnew := flatMap_frames_concat (wholeFrames [lastIdWrite] 30) [] nextWrite
    rw [TailEngine.writeWithTx_eq hnext, ← List.nil_append [nextWrite], ← hnew, ← hold]
    rfl
  have hrecover := TailEngine.recover_later (n := 30) hlast (List.forall_mem_singleton.mpr hnext)
  rw [← hwal] at hrecover
  refine ⟨⟨_, rfl⟩, ⟨_, rfl⟩, s, _, _, _, _, hs, hstep, hrecover, rfl, rfl, fun hexact ↦ ?_⟩
  have hapart := hinv.keepsApart hlast hstep hexact
  refine hapart nextWrite.txId (congrArg some hid) ((Mutation.put [107] [9]).walRecord
    lastIdWrite.txId) ?_ rfl
  exact List.mem_singleton.mpr rfl

end HatP
