import HatP.Wal.Codec

/-!
# One batch of the group commit

Whoever drains the queue of pending writes asks the hook about every request,
appends the frames of those that pass in one write, applies them one after the
other and puts every answer into the channel of its caller.
-/

namespace HatP

/-! ## What commits change -/

/-- The arguments of a call of `write_with_tx_sync`. -/
structure WriteCall where
  txId : ℕ
  mutations : List Mutation

def WriteCall.frames (call : WriteCall) : List WalRecord :=
  encodeMutations call.txId call.mutations

/-- The outcome of a WAL append.  A failing one may leave some of its frames. -/
inductive AppendOutcome
  | appended
  | failed (frames : ℕ) (err : EngineError) (text : String)

/-- The log, the memtable and the commit sequence, and the calls that were
logged, turned down by the hook, or accepted in an append that failed.  Every
frame of the log carries the call that it belongs to. -/
structure Ledger where
  wal : List (ℕ × WalRecord)
  commitSeq : ℕ
  memtable : MemTable
  logged : List ℕ
  rejected : List ℕ
  failed : List ℕ
  /-- The calls in the memtable with their timestamps. -/
  applied : List (ℕ × ℕ)

section

variable (calls : ℕ → WriteCall)

def taggedFrames (batch : List ℕ) : List (ℕ × WalRecord) :=
  batch.flatMap fun call ↦ (calls call).frames.map (Prod.mk call)

namespace Ledger

def reject (l : Ledger) (batch : List ℕ) : Ledger := { l with rejected := l.rejected ++ batch }

def append (l : Ledger) (batch : List ℕ) : Ledger :=
  { l with wal := l.wal ++ taggedFrames calls batch, logged := l.logged ++ batch }

def failAppend (l : Ledger) (batch : List ℕ) (frames : ℕ) : Ledger :=
  { l with
    wal := l.wal ++ (taggedFrames calls batch).take frames
    failed := l.failed ++ batch }

def apply (l : Ledger) (call : ℕ) : Ledger :=
  { l with
    commitSeq := l.commitSeq + 1
    memtable := l.memtable.applyMutationsBatch (calls call).txId (calls call).mutations l.commitSeq
    applied := l.applied ++ [(call, l.commitSeq)] }

def commitSingle (l : Ledger) (call : ℕ) (verdict : Except EngineError Unit)
    (outcome : AppendOutcome) : Ledger × Except EngineError ℕ :=
  match verdict with
  | .error err => (l.reject [call], .error err)
  | .ok () =>
    match outcome with
    | .failed frames err _ => (l.failAppend calls [call] frames, .error err)
    | .appended => ((l.append calls [call]).apply calls call, .ok l.commitSeq)

end Ledger

/-! ## A batch -/

/-- The channels of the callers; each has room for one answer. -/
abbrev Channels := ℕ → List (Except EngineError ℕ)

def Channels.send (channels : Channels) (call : ℕ) (result : Except EngineError ℕ) : Channels :=
  Function.update channels call (channels call ++ [result])

def swap (batch : List ℕ) (i j : ℕ) : List ℕ :=
  match batch[i]?, batch[j]? with
  | some a, some b => (batch.set i b).set j a
  | _, _ => batch

/-- One iteration of the pre-commit loop: the batch, how many of its requests
have passed, and the answers to the others. -/
def preCommitStep (verdict : ℕ → Except EngineError Unit)
    (acc : List ℕ × ℕ × List (ℕ × EngineError)) (index : ℕ) :
    List ℕ × ℕ × List (ℕ × EngineError) :=
  match acc.1[index]? with
  | none => acc
  | some call =>
    match verdict call with
    | .ok () => (swap acc.1 acc.2.1 index, acc.2.1 + 1, acc.2.2)
    | .error err => (acc.1, acc.2.1, acc.2.2 ++ [(call, err)])

def preCommitAll (verdict : ℕ → Except EngineError Unit) (batch : List ℕ) :
    List ℕ × List (ℕ × EngineError) :=
  let acc := (List.range batch.length).foldl (preCommitStep verdict) (batch, 0, [])
  (acc.1.take acc.2.1, acc.2.2)

def commitStep (acc : Ledger × Channels) (call : ℕ) : Ledger × Channels :=
  (acc.1.apply calls call, acc.2.send call (.ok acc.1.commitSeq))

def flushPendingBatch (l : Ledger) (channels : Channels) (batch : List ℕ)
    (verdict : ℕ → Except EngineError Unit) (outcome : AppendOutcome) :
    (Ledger × Channels) × Except EngineError Unit :=
  let (passed, refused) := preCommitAll verdict batch
  let l := l.reject (refused.map Prod.fst)
  let channels := refused.foldl (fun channels answer ↦ channels.send answer.1 (.error answer.2))
    channels
  if passed = [] then ((l, channels), .ok ())
  else
    match outcome with
    | .failed frames err text =>
      ((l.failAppend calls passed frames, passed.foldl (fun channels call ↦
        channels.send call (.error (.corruptMessage ("WAL append failed: " ++ text)))) channels),
        .error err)
    | .appended => (passed.foldl (commitStep calls) (l.append calls passed, channels), .ok ())

end

/-! ## The pre-commit loop -/

section Batch

variable {verdict : ℕ → Except EngineError Unit} {batch : List ℕ}
  {acc : List ℕ × ℕ × List (ℕ × EngineError)}

def passes (verdict : ℕ → Except EngineError Unit) (call : ℕ) : Bool :=
  match verdict call with
  | .ok () => true
  | .error _ => false

def refusal (verdict : ℕ → Except EngineError Unit) (call : ℕ) : Option (ℕ × EngineError) :=
  match verdict call with
  | .ok () => none
  | .error err => some (call, err)

theorem swap_eq {i j a : ℕ} (hij : i ≤ j) (ha : batch[j]? = some a) :
    (swap batch i j).take (i + 1) = batch.take i ++ [a] ∧
      (swap batch i j).drop (j + 1) = batch.drop (j + 1) := by
  obtain ⟨hj, rfl⟩ := List.getElem?_eq_some_iff.mp ha
  have hi : i < batch.length := lt_of_le_of_lt hij hj
  have hswap : swap batch i j = (batch.set i batch[j]).set j batch[i] := by
    simp [swap, List.getElem?_eq_getElem hi, List.getElem?_eq_getElem hj]
  rw [hswap]
  constructor
  · rcases hij.eq_or_lt with rfl | hlt
    · rw [List.set_set, List.set_getElem_self, List.take_succ_eq_append_getElem hi]
    · have hshort : ((batch.take (i + 1)).set i batch[j]).length ≤ j := by
        rw [List.length_set, List.length_take]
        omega
      have hlen : (batch.take i).length = i := List.length_take_of_le hi.le
      rw [List.take_set, List.take_set, List.set_eq_of_length_le hshort,
        List.take_succ_eq_append_getElem hi, List.set_append_right _ _ hlen.le, hlen, Nat.sub_self]
      rfl
  · rw [List.drop_set_of_lt (by omega), List.drop_set_of_lt (by omega)]

/-- After `k` iterations the requests that passed are in front, in order, and
the ones not yet looked at are in their places. -/
theorem foldl_preCommitStep (verdict : ℕ → Except EngineError Unit) (batch : List ℕ) {k : ℕ}
    (hk : k ≤ batch.length) :
    ∃ now passed refused, (List.range k).foldl (preCommitStep verdict) (batch, 0, []) =
        (now, passed, refused) ∧ passed ≤ k ∧
      now.take passed = (batch.take k).filter (passes verdict) ∧ now.drop k = batch.drop k ∧
      refused = (batch.take k).filterMap (refusal verdict) := by
  induction k with
  | zero => exact ⟨batch, 0, [], rfl, le_rfl, rfl, rfl, rfl⟩
  | succ k ih =>
    obtain ⟨now, passed, refused, hfold, hle, htake, hdrop, hrefused⟩ := ih (by omega)
    have hlt : k < batch.length := hk
    have hcall : now[k]? = some batch[k] := by
      have hhead := congrArg (fun l : List ℕ ↦ l[0]?) hdrop
      simpa [List.getElem?_drop, List.getElem?_eq_getElem hlt] using hhead
    have hbatch : batch.take (k + 1) = batch.take k ++ [batch[k]] :=
      List.take_succ_eq_append_getElem hlt
    have hbehind : now.drop (k + 1) = batch.drop (k + 1) := by
      have htail := congrArg (List.drop 1) hdrop
      simpa [List.drop_drop, Nat.add_comm] using htail
    rw [List.range_succ, List.foldl_append, hfold, List.foldl_cons, List.foldl_nil, hbatch,
      List.filter_append, List.filterMap_append]
    cases hverdict : verdict batch[k] with
    | ok value =>
      obtain ⟨hswap, hswapBehind⟩ := swap_eq hle hcall
      simp only [preCommitStep, hcall, hverdict]
      refine ⟨_, _, _, rfl, Nat.succ_le_succ hle, ?_, hswapBehind.trans hbehind, ?_⟩
      · rw [hswap, htake]
        simp [passes, hverdict]
      · simp [refusal, hverdict, hrefused]
    | error err =>
      simp only [preCommitStep, hcall, hverdict]
      refine ⟨_, _, _, rfl, Nat.le_succ_of_le hle, ?_, hbehind, ?_⟩
      · rw [htake]
        simp [passes, hverdict]
      · simp [refusal, hverdict, hrefused]

/-- Swapping keeps the order: the requests that pass are a filtered batch. -/
theorem preCommitAll_eq (verdict : ℕ → Except EngineError Unit) (batch : List ℕ) :
    preCommitAll verdict batch =
      (batch.filter (passes verdict), batch.filterMap (refusal verdict)) := by
  obtain ⟨now, passed, refused, hfold, -, htake, -, hrefused⟩ :=
    foldl_preCommitStep verdict batch le_rfl
  rw [preCommitAll, hfold]
  rw [List.take_length] at htake hrefused
  exact Prod.ext htake hrefused

theorem map_fst_refusals (verdict : ℕ → Except EngineError Unit) (batch : List ℕ) :
    (batch.filterMap (refusal verdict)).map Prod.fst =
      batch.filter fun call ↦ !passes verdict call := by
  induction batch with
  | nil => rfl
  | cons call batch ih =>
    cases hverdict : verdict call with
    | ok value | error err => simp [refusal, passes, hverdict, ih]

end Batch

/-! ## The ledger -/

section Ledger

variable {calls : ℕ → WriteCall} {batch : List ℕ}

theorem fst_mem_of_mem_taggedFrames {entry : ℕ × WalRecord}
    (h : entry ∈ taggedFrames calls batch) : entry.1 ∈ batch := by
  obtain ⟨call, hcall, hmem⟩ := List.mem_flatMap.mp h
  obtain ⟨record, -, rfl⟩ := List.mem_map.mp hmem
  exact hcall

theorem filter_taggedFrames_of_notMem {call : ℕ} (h : call ∉ batch) :
    (taggedFrames calls batch).filter (fun entry ↦ entry.1 == call) = [] := by
  refine List.filter_eq_nil_iff.mpr fun entry hentry heq ↦ h ?_
  have heq : entry.1 = call := by simpa using heq
  exact heq ▸ fst_mem_of_mem_taggedFrames hentry

theorem filter_taggedFrames (hnodup : batch.Nodup) {call : ℕ} (h : call ∈ batch) :
    (taggedFrames calls batch).filter (fun entry ↦ entry.1 == call) =
      (calls call).frames.map (Prod.mk call) := by
  induction batch with
  | nil => cases h
  | cons first batch ih =>
    obtain ⟨hfirst, hnodup⟩ := List.nodup_cons.mp hnodup
    have hsplit : taggedFrames calls (first :: batch) =
        (calls first).frames.map (Prod.mk first) ++ taggedFrames calls batch := rfl
    rw [hsplit, List.filter_append]
    rcases List.mem_cons.mp h with rfl | h
    · rw [filter_taggedFrames_of_notMem hfirst, List.append_nil, List.filter_eq_self]
      intro entry hentry
      obtain ⟨record, -, rfl⟩ := List.mem_map.mp hentry
      exact beq_self_eq_true call
    · have hnone : ((calls first).frames.map (Prod.mk first)).filter
          (fun entry ↦ entry.1 == call) = [] := by
        refine List.filter_eq_nil_iff.mpr fun entry hentry heq ↦ ?_
        obtain ⟨record, -, rfl⟩ := List.mem_map.mp hentry
        have heq : first = call := by simpa using heq
        exact hfirst (heq ▸ h)
      rw [hnone, List.nil_append, ih hnodup h]

theorem commits_taggedFrames (batch : List ℕ) :
    ((taggedFrames calls batch).filter fun entry ↦ decide (entry.2.op = .commit)).map Prod.fst =
      batch := by
  have hone : ∀ call, (((calls call).frames.map (Prod.mk call)).filter
      fun entry : ℕ × WalRecord ↦ decide (entry.2.op = .commit)).map Prod.fst = [call] := by
    intro call
    have hmutations : ((calls call).mutations.map (Mutation.walRecord (calls call).txId)).filter
        (fun record ↦ decide (record.op = .commit)) = [] := by
      refine List.filter_eq_nil_iff.mpr fun record hrecord ↦ ?_
      obtain ⟨m, -, rfl⟩ := List.mem_map.mp hrecord
      cases m <;> simp [Mutation.walRecord]
    rw [List.filter_map, List.map_map, WriteCall.frames, encodeMutations, List.filter_append]
    simp only [Function.comp_def]
    rw [hmutations]
    rfl
  induction batch with
  | nil => rfl
  | cons call batch ih =>
    have hsplit : taggedFrames calls (call :: batch) =
        (calls call).frames.map (Prod.mk call) ++ taggedFrames calls batch := rfl
    rw [hsplit, List.filter_append, List.map_append, ih, hone]
    rfl

namespace Ledger

def settled (l : Ledger) : List ℕ := l.rejected ++ l.failed ++ l.logged

/-- The log holds every logged call once, its commit frames are in the order of
the calls, and other frames belong to appends that failed. -/
structure Logs (calls : ℕ → WriteCall) (l : Ledger) : Prop where
  frames : ∀ call ∈ l.logged, l.wal.filter (fun entry ↦ entry.1 == call) =
    (calls call).frames.map (Prod.mk call)
  owner : ∀ entry ∈ l.wal, entry.1 ∈ l.logged ∨ entry.1 ∈ l.failed
  commits : (l.wal.filter fun entry ↦ decide (entry.2.op = .commit ∧ entry.1 ∈ l.logged)).map
    Prod.fst = l.logged
  nodup : l.settled.Nodup

variable {l : Ledger}

section

variable (hnew : (batch ++ l.settled).Nodup)

include hnew

theorem nodup_settled_append :
    (l.rejected ++ l.failed ++ (l.logged ++ batch)).Nodup := by
  refine (List.Perm.nodup_iff ?_).mp hnew
  rw [← List.append_assoc]
  exact List.perm_append_comm

theorem Logs.notMem_of_mem_wal (h : Logs calls l) {entry : ℕ × WalRecord}
    (hentry : entry ∈ l.wal) : entry.1 ∉ batch := by
  intro hbatch
  have hsettled : entry.1 ∈ l.settled := by
    rcases h.owner entry hentry with hmem | hmem
    · exact List.mem_append_right _ hmem
    · exact List.mem_append_left _ (List.mem_append_right _ hmem)
  exact (List.nodup_append.mp hnew).2.2 _ hbatch _ hsettled rfl

theorem notMem_of_mem_logged {call : ℕ} (hcall : call ∈ l.logged) : call ∉ batch :=
  fun hbatch ↦ (List.nodup_append.mp hnew).2.2 _ hbatch _ (List.mem_append_right _ hcall) rfl

theorem Logs.reject (h : Logs calls l) : Logs calls (l.reject batch) where
  frames := h.frames
  owner := h.owner
  commits := h.commits
  nodup := by
    refine (List.Perm.nodup_iff ?_).mp hnew
    simp only [settled, Ledger.reject, List.append_assoc]
    rw [← List.append_assoc, ← List.append_assoc l.rejected]
    exact List.perm_append_comm.append_right _

theorem Logs.append (h : Logs calls l) : Logs calls (l.append calls batch) where
  frames call hcall := by
    simp only [Ledger.append, List.filter_append]
    rcases List.mem_append.mp hcall with hold | hbatch
    · rw [h.frames call hold, filter_taggedFrames_of_notMem (notMem_of_mem_logged hnew hold),
        List.append_nil]
    · have hnone : l.wal.filter (fun entry ↦ entry.1 == call) = [] := by
        refine List.filter_eq_nil_iff.mpr fun entry hentry heq ↦ ?_
        have heq : entry.1 = call := by simpa using heq
        exact h.notMem_of_mem_wal hnew hentry (heq ▸ hbatch)
      rw [hnone, List.nil_append, filter_taggedFrames (List.nodup_append.mp hnew).1 hbatch]
  owner entry hentry := by
    rcases List.mem_append.mp hentry with hold | hbatch
    · exact (h.owner entry hold).imp_left fun hmem ↦ List.mem_append_left _ hmem
    · exact .inl (List.mem_append_right _ (fst_mem_of_mem_taggedFrames hbatch))
  commits := by
    have hold : l.wal.filter (fun entry ↦
        decide (entry.2.op = .commit ∧ entry.1 ∈ l.logged ++ batch)) =
          l.wal.filter fun entry ↦ decide (entry.2.op = .commit ∧ entry.1 ∈ l.logged) := by
      refine List.filter_congr fun entry hentry ↦ ?_
      have hnot := h.notMem_of_mem_wal hnew hentry
      simp [hnot]
    have hbatch : (taggedFrames calls batch).filter (fun entry ↦
        decide (entry.2.op = .commit ∧ entry.1 ∈ l.logged ++ batch)) =
          (taggedFrames calls batch).filter fun entry ↦ decide (entry.2.op = .commit) := by
      refine List.filter_congr fun entry hentry ↦ ?_
      have hmem := fst_mem_of_mem_taggedFrames hentry
      simp [hmem]
    change ((l.wal ++ taggedFrames calls batch).filter fun entry ↦
      decide (entry.2.op = .commit ∧ entry.1 ∈ l.logged ++ batch)).map Prod.fst = l.logged ++ batch
    rw [List.filter_append, List.map_append, hold, hbatch, h.commits, commits_taggedFrames]
  nodup := nodup_settled_append hnew

theorem Logs.failAppend (h : Logs calls l) (frames : ℕ) :
    Logs calls (l.failAppend calls batch frames) := by
  have hnot : ∀ entry ∈ (taggedFrames calls batch).take frames, entry.1 ∈ batch :=
    fun entry hentry ↦ fst_mem_of_mem_taggedFrames (List.mem_of_mem_take hentry)
  refine ⟨fun call hcall ↦ ?_, fun entry hentry ↦ ?_, ?_, ?_⟩
  · have hnone : ((taggedFrames calls batch).take frames).filter
        (fun entry ↦ entry.1 == call) = [] := by
      refine List.filter_eq_nil_iff.mpr fun entry hentry heq ↦ ?_
      have heq : entry.1 = call := by simpa using heq
      exact notMem_of_mem_logged hnew hcall (heq ▸ hnot entry hentry)
    simp only [Ledger.failAppend, List.filter_append]
    rw [hnone, List.append_nil]
    exact h.frames call hcall
  · rcases List.mem_append.mp hentry with hold | hbatch
    · exact (h.owner entry hold).imp_right fun hmem ↦ List.mem_append_left _ hmem
    · exact .inr (List.mem_append_right _ (hnot entry hbatch))
  · have hnone : ((taggedFrames calls batch).take frames).filter
        (fun entry ↦ decide (entry.2.op = .commit ∧ entry.1 ∈ l.logged)) = [] := by
      refine List.filter_eq_nil_iff.mpr fun entry hentry heq ↦ ?_
      have heq : entry.2.op = .commit ∧ entry.1 ∈ l.logged := by simpa using heq
      exact notMem_of_mem_logged hnew heq.2 (hnot entry hentry)
    change ((l.wal ++ (taggedFrames calls batch).take frames).filter fun entry ↦
      decide (entry.2.op = .commit ∧ entry.1 ∈ l.logged)).map Prod.fst = l.logged
    rw [List.filter_append, hnone, List.append_nil, h.commits]
  · refine (List.Perm.nodup_iff ?_).mp hnew
    simp only [settled, Ledger.failAppend]
    rw [← List.append_assoc l.rejected, ← List.append_assoc]
    exact List.perm_append_comm.append_right _

end

/-- Timestamps are consecutive from `base`, and the memtable is `table` with the
applied calls under theirs. -/
structure Stamps (calls : ℕ → WriteCall) (base : ℕ) (table : MemTable) (l : Ledger) : Prop where
  timestamps : l.applied.map Prod.snd = List.range' base l.applied.length
  next : l.commitSeq = base + l.applied.length
  memtable : l.memtable = l.applied.foldl (fun table entry ↦
    table.applyMutationsBatch (calls entry.1).txId (calls entry.1).mutations entry.2) table

variable {base : ℕ} {table : MemTable}

theorem Stamps.apply (h : Stamps calls base table l) (call : ℕ) :
    Stamps calls base table (l.apply calls call) where
  timestamps := by
    simp only [Ledger.apply, List.map_append, List.length_append, List.length_singleton]
    rw [List.range'_concat, h.timestamps, h.next]
    simp
  next := by
    simp only [Ledger.apply, List.length_append, List.length_singleton, h.next]
    omega
  memtable := by
    simp only [Ledger.apply, List.foldl_append, List.foldl_cons, List.foldl_nil, ← h.memtable]

theorem Logs.apply (h : Logs calls l) (call : ℕ) : Logs calls (l.apply calls call) :=
  ⟨h.frames, h.owner, h.commits, h.nodup⟩

end Ledger

end Ledger

/-! ## What a batch does -/

section Flush

variable {calls : ℕ → WriteCall} {base : ℕ} {table : MemTable} {l : Ledger} {batch : List ℕ}

namespace Ledger

variable {l' : Ledger} {call : ℕ}

structure Valid (calls : ℕ → WriteCall) (base : ℕ) (table : MemTable) (l : Ledger) : Prop
    extends Logs calls l, Stamps calls base table l where
  applied : l.applied.map Prod.fst = l.logged

/-- The calls of `batch` are settled, and what was known stays. -/
structure Extends (batch : List ℕ) (l l' : Ledger) : Prop where
  settled : l'.settled.Perm (batch ++ l.settled)
  rejected : l.rejected ⊆ l'.rejected
  failed : l.failed ⊆ l'.failed
  logged : l.logged ⊆ l'.logged
  applied : l.applied ⊆ l'.applied

def Answers (l : Ledger) (call : ℕ) : Except EngineError ℕ → Prop
  | .ok commitTs => (call, commitTs) ∈ l.applied
  | .error _ => call ∈ l.rejected ++ l.failed

theorem Answers.mono {result : Except EngineError ℕ}
    (hext : Extends batch l l') (h : l.Answers call result) : l'.Answers call result := by
  cases result with
  | ok commitTs => exact hext.applied h
  | error err =>
    rcases List.mem_append.mp h with h | h
    · exact List.mem_append_left _ (hext.rejected h)
    · exact List.mem_append_right _ (hext.failed h)

section

variable (h : l.Valid calls base table)

include h

theorem Valid.mem_settled
    {result : Except EngineError ℕ} (hanswer : l.Answers call result) : call ∈ l.settled := by
  cases result with
  | ok commitTs =>
    have hlogged : call ∈ l.logged := h.applied ▸ List.mem_map_of_mem hanswer
    exact List.mem_append_right _ hlogged
  | error err => exact List.mem_append_left _ hanswer

theorem Valid.notMem_of_mem_logged (hcall : call ∈ l.logged) : call ∉ l.rejected ++ l.failed :=
  fun hmem ↦ (List.nodup_append.mp h.nodup).2.2 _ hmem _ hcall rfl

theorem Valid.notMem_of_mem_rejected
    (hcall : call ∈ l.rejected) : call ∉ l.failed ∧ call ∉ l.logged := by
  obtain ⟨hleft, -, hright⟩ := List.nodup_append.mp h.nodup
  exact ⟨fun hmem ↦ (List.nodup_append.mp hleft).2.2 _ hcall _ hmem rfl,
    fun hmem ↦ hright _ (List.mem_append_left _ hcall) _ hmem rfl⟩

theorem Valid.filter_applied {entry : ℕ × ℕ} (hentry : entry ∈ l.applied) :
    l.applied.filter (fun other ↦ other.1 == entry.1) = [entry] := by
  have hnodup : (l.applied.map Prod.fst).Nodup :=
    h.applied ▸ (List.nodup_append.mp h.nodup).2.1
  have hsame : l.applied.filter (fun other ↦ other.1 == entry.1) =
      l.applied.filter (fun other ↦ other == entry) := by
    refine List.filter_congr fun other hother ↦ ?_
    have hiff : other.1 = entry.1 ↔ other = entry :=
      ⟨fun heq ↦ List.inj_on_of_nodup_map hnodup hother hentry heq, fun heq ↦ heq ▸ rfl⟩
    simp [hiff]
  rw [hsame, List.filter_beq, List.count_eq_one_of_mem (hnodup.of_map _) hentry, List.replicate_one]

end

def commit (calls : ℕ → WriteCall) (l : Ledger) (batch : List ℕ) : Ledger :=
  batch.foldl (apply calls) (l.append calls batch)

theorem foldl_apply_frame (l : Ledger) (batch : List ℕ) :
    (batch.foldl (apply calls) l).settled = l.settled ∧
      (batch.foldl (apply calls) l).rejected = l.rejected ∧
      (batch.foldl (apply calls) l).failed = l.failed ∧
      (batch.foldl (apply calls) l).logged = l.logged := by
  induction batch generalizing l with
  | nil => exact ⟨rfl, rfl, rfl, rfl⟩
  | cons call batch ih => exact ih (l.apply calls call)

theorem applied_foldl_apply (l : Ledger) (batch : List ℕ) :
    (batch.foldl (apply calls) l).applied = l.applied ++ batch.zipIdx l.commitSeq := by
  induction batch generalizing l with
  | nil => exact (List.append_nil _).symm
  | cons call batch ih =>
    rw [List.foldl_cons, ih (l.apply calls call)]
    simp [Ledger.apply, List.zipIdx_cons]

section

variable (h : l.Valid calls base table) (hnew : (batch ++ l.settled).Nodup)

include h hnew

theorem Valid.reject : (l.reject batch).Valid calls base table :=
  ⟨h.toLogs.reject hnew, ⟨h.timestamps, h.next, h.memtable⟩, h.applied⟩

theorem Valid.failAppend (frames : ℕ) :
    (l.failAppend calls batch frames).Valid calls base table :=
  ⟨h.toLogs.failAppend hnew frames, ⟨h.timestamps, h.next, h.memtable⟩, h.applied⟩

theorem Valid.commit : (l.commit calls batch).Valid calls base table := by
  have hlogs : Logs calls (l.commit calls batch) :=
    List.foldlRecOn batch _ (h.toLogs.append hnew) fun l hl call _ ↦ hl.apply call
  have hstamps : Stamps calls base table (l.commit calls batch) :=
    List.foldlRecOn batch _ ⟨h.timestamps, h.next, h.memtable⟩ fun l hl call _ ↦ hl.apply call
  refine ⟨hlogs, hstamps, ?_⟩
  rw [Ledger.commit, applied_foldl_apply, List.map_append, (foldl_apply_frame _ batch).2.2.2,
    List.zipIdx_map_fst]
  exact congrArg (· ++ batch) h.applied

end

theorem extends_reject (l : Ledger) (batch : List ℕ) : Extends batch l (l.reject batch) where
  settled := by
    simp only [Ledger.settled, Ledger.reject, List.append_assoc]
    rw [← List.append_assoc, ← List.append_assoc batch]
    exact List.perm_append_comm.append_right _
  rejected := List.subset_append_left _ _
  failed := List.Subset.refl _
  logged := List.Subset.refl _
  applied := List.Subset.refl _

theorem extends_failAppend (l : Ledger) (batch : List ℕ) (frames : ℕ) :
    Extends batch l (l.failAppend calls batch frames) where
  settled := by
    simp only [Ledger.settled, Ledger.failAppend]
    rw [← List.append_assoc l.rejected, ← List.append_assoc batch]
    exact List.perm_append_comm.append_right _
  rejected := List.Subset.refl _
  failed := List.subset_append_left _ _
  logged := List.Subset.refl _
  applied := List.Subset.refl _

theorem extends_commit (l : Ledger) (batch : List ℕ) : Extends batch l (l.commit calls batch) where
  settled := by
    rw [Ledger.commit, (foldl_apply_frame _ batch).1]
    simp only [Ledger.settled, Ledger.append]
    rw [← List.append_assoc _ l.logged]
    exact List.perm_append_comm
  rejected := by
    rw [Ledger.commit, (foldl_apply_frame _ batch).2.1]
    exact List.Subset.refl _
  failed := by
    rw [Ledger.commit, (foldl_apply_frame _ batch).2.2.1]
    exact List.Subset.refl _
  logged := by
    rw [Ledger.commit, (foldl_apply_frame _ batch).2.2.2]
    exact List.subset_append_left _ _
  applied := by
    rw [Ledger.commit, applied_foldl_apply]
    exact List.subset_append_left _ _

theorem Extends.trans {l'' : Ledger} {rest : List ℕ} (h : Extends batch l l')
    (h' : Extends rest l' l'') : Extends (batch ++ rest) l l'' where
  settled := by
    refine h'.settled.trans ((h.settled.append_left rest).trans ?_)
    rw [← List.append_assoc]
    exact List.perm_append_comm.append_right _
  rejected := List.Subset.trans h.rejected h'.rejected
  failed := List.Subset.trans h.failed h'.failed
  logged := List.Subset.trans h.logged h'.logged
  applied := List.Subset.trans h.applied h'.applied

theorem Extends.congr {other : List ℕ} (h : Extends batch l l')
    (hperm : batch.Perm other) : Extends other l l' :=
  ⟨h.settled.trans (hperm.append_right _), h.rejected, h.failed, h.logged, h.applied⟩

theorem Extends.of_eq_nil (h : batch = []) : Extends batch l l where
  settled := by
    rw [h]
    exact List.Perm.refl _
  rejected := List.Subset.refl _
  failed := List.Subset.refl _
  logged := List.Subset.refl _
  applied := List.Subset.refl _

/-- What the verdict on a request and the outcome of its append decide. -/
def Decided (l : Ledger) (call : ℕ) (verdict : Except EngineError Unit)
    (outcome : AppendOutcome) : Prop :=
  match verdict, outcome with
  | .error _, _ => call ∈ l.rejected
  | .ok (), .failed _ _ _ => call ∈ l.failed
  | .ok (), .appended => call ∈ l.logged

theorem Decided.mono {verdict : Except EngineError Unit}
    {outcome : AppendOutcome} (hext : Extends batch l l') (h : l.Decided call verdict outcome) :
    l'.Decided call verdict outcome := by
  cases verdict with
  | error err => exact hext.rejected h
  | ok value =>
    cases outcome with
    | appended => exact hext.logged h
    | failed frames err text => exact hext.failed h

end Ledger

/-- Every call of `batch` has got one answer, and no other call has. -/
structure Answered (batch : List ℕ) (l : Ledger) (channels channels' : Channels) : Prop where
  mine : ∀ call ∈ batch, ∃ result, channels' call = channels call ++ [result] ∧
    l.Answers call result
  others : ∀ call, call ∉ batch → channels' call = channels call

theorem answered_foldl_send {ι : Type*} (xs : List ι) (call : ι → ℕ)
    (result : ι → Except EngineError ℕ) (channels : Channels) (hnodup : (xs.map call).Nodup)
    (h : ∀ x ∈ xs, l.Answers (call x) (result x)) :
    Answered (xs.map call) l channels
      (xs.foldl (fun channels x ↦ channels.send (call x) (result x)) channels) := by
  induction xs generalizing channels with
  | nil => exact ⟨fun call hcall ↦ (by cases hcall), fun call _ ↦ rfl⟩
  | cons x xs ih =>
    rw [List.map_cons, List.nodup_cons] at hnodup
    obtain ⟨mine, others⟩ := ih (channels.send (call x) (result x)) hnodup.2
      fun other hother ↦ h other (.tail _ hother)
    have hsend : ∀ other, other ≠ call x →
        channels.send (call x) (result x) other = channels other :=
      fun other hne ↦ Function.update_of_ne hne _ _
    rw [List.map_cons, List.foldl_cons]
    refine ⟨fun other hother ↦ ?_, fun other hother ↦ ?_⟩
    · rcases List.mem_cons.mp hother with rfl | hother
      · refine ⟨result x, ?_, h x (.head _)⟩
        rw [others _ hnodup.1]
        exact Function.update_self ..
      · have hne : other ≠ call x := fun heq ↦ hnodup.1 (heq ▸ hother)
        rw [← hsend other hne]
        exact mine other hother
    · rw [List.mem_cons, not_or] at hother
      obtain ⟨hne, hother⟩ := hother
      rw [others other hother, hsend other hne]

variable {first second : Channels} {l' : Ledger}

theorem Answered.trans {rest : List ℕ} {third : Channels}
    (h : Answered batch l first second) (h' : Answered rest l second third)
    (hdisjoint : ∀ call ∈ batch, call ∉ rest) : Answered (batch ++ rest) l first third where
  mine call hcall := by
    by_cases hbatch : call ∈ batch
    · rw [h'.others call (hdisjoint call hbatch)]
      exact h.mine call hbatch
    · rw [← h.others call hbatch]
      exact h'.mine call ((List.mem_append.mp hcall).resolve_left hbatch)
  others call hcall := by
    rw [List.mem_append, not_or] at hcall
    obtain ⟨hbatch, hrest⟩ := hcall
    rw [h'.others call hrest, h.others call hbatch]

theorem Answered.mono {rest : List ℕ}
    (h : Answered batch l first second) (hext : Ledger.Extends rest l l') :
    Answered batch l' first second where
  mine call hcall := by
    obtain ⟨result, heq, hanswer⟩ := h.mine call hcall
    exact ⟨result, heq, hanswer.mono hext⟩
  others := h.others

theorem Answered.congr {other : List ℕ}
    (h : Answered batch l first second) (hmem : ∀ call, call ∈ batch ↔ call ∈ other) :
    Answered other l first second where
  mine call hcall := h.mine call ((hmem call).mpr hcall)
  others call hcall := h.others call fun hbatch ↦ hcall ((hmem call).mp hbatch)

theorem foldl_commitStep (batch : List ℕ) (l : Ledger) (channels : Channels) :
    batch.foldl (commitStep calls) (l, channels) =
      (batch.foldl (Ledger.apply calls) l, (batch.zipIdx l.commitSeq).foldl
        (fun channels entry ↦ channels.send entry.1 (.ok entry.2)) channels) := by
  induction batch generalizing l channels with
  | nil => rfl
  | cons call batch ih => exact ih (l.apply calls call) _

theorem mem_foldl_send {ι : Type*} {xs : List ι} {call : ι → ℕ} {result : ι → Except EngineError ℕ}
    {channels : Channels} {i : ℕ} {answer : Except EngineError ℕ} :
    answer ∈ xs.foldl (fun channels x ↦ channels.send (call x) (result x)) channels i ↔
      answer ∈ channels i ∨ ∃ x ∈ xs, call x = i ∧ answer = result x := by
  induction xs generalizing channels with
  | nil => simp
  | cons x xs ih =>
    rw [List.foldl_cons, ih]
    by_cases heq : call x = i
    · subst heq
      simp [Channels.send, or_assoc]
    · simp [Channels.send, heq, Function.update_of_ne (Ne.symm heq)]

/-- The specification of a batch: all its calls are settled and answered, and an
error for the caller means that its own request was not committed. -/
structure Flushed (calls : ℕ → WriteCall) (base : ℕ) (table : MemTable)
    (verdict : ℕ → Except EngineError Unit) (outcome : AppendOutcome) (batch : List ℕ)
    (l : Ledger) (channels : Channels)
    (done : (Ledger × Channels) × Except EngineError Unit) : Prop where
  valid : done.1.1.Valid calls base table
  extended : Ledger.Extends batch l done.1.1
  answered : Answered batch done.1.1 channels done.1.2
  decided : ∀ call ∈ batch, done.1.1.Decided call (verdict call) outcome
  failure : ∀ err, done.2 = .error err → ∀ call ∈ batch,
    call ∈ done.1.1.rejected ++ done.1.1.failed

theorem nodup_good_append (hnew : (batch ++ l.settled).Nodup)
    (verdict : ℕ → Except EngineError Unit)
    (hext : Ledger.Extends (batch.filter fun call ↦ !passes verdict call) l l') :
    (batch.filter (passes verdict) ++ l'.settled).Nodup := by
  refine (List.Perm.nodup_iff ?_).mp hnew
  refine .trans ?_ (hext.settled.append_left _).symm
  rw [← List.append_assoc]
  exact (List.filter_append_perm (passes verdict) batch).symm.append_right _

theorem answered_refused (channels : Channels) (hnodup : batch.Nodup)
    (verdict : ℕ → Except EngineError Unit) :
    Answered (batch.filter fun call ↦ !passes verdict call)
      (l.reject (batch.filter fun call ↦ !passes verdict call)) channels
      ((batch.filterMap (refusal verdict)).foldl
        (fun channels answer ↦ channels.send answer.1 (.error answer.2)) channels) := by
  have hrefused : ((batch.filterMap (refusal verdict)).map Prod.fst).Nodup := by
    rw [map_fst_refusals]
    exact hnodup.filter _
  rw [← map_fst_refusals]
  exact answered_foldl_send _ Prod.fst (fun answer ↦ .error answer.2) channels hrefused
    fun answer hanswer ↦
      List.mem_append_left _ (List.mem_append_right _ (List.mem_map_of_mem hanswer))

theorem answered_failAppend (hnodup : batch.Nodup) (channels : Channels) (frames : ℕ)
    (err : EngineError) :
    Answered batch (l.failAppend calls batch frames) channels
      (batch.foldl (fun channels call ↦ channels.send call (.error err)) channels) := by
  have hfold := answered_foldl_send (l := l.failAppend calls batch frames) batch id
    (fun _ ↦ .error err) channels (by rwa [List.map_id])
    fun call hcall ↦ List.mem_append_right _ (List.mem_append_right _ hcall)
  rwa [List.map_id] at hfold

theorem foldl_commitStep_append (batch : List ℕ) (l : Ledger) (channels : Channels) :
    batch.foldl (commitStep calls) (l.append calls batch, channels) =
      (l.commit calls batch,
        (batch.foldl (commitStep calls) (l.append calls batch, channels)).2) := by
  refine Prod.ext ?_ rfl
  rw [foldl_commitStep]
  rfl

theorem answered_commit (hnodup : batch.Nodup) (channels : Channels) :
    Answered batch (l.commit calls batch) channels
      (batch.foldl (commitStep calls) (l.append calls batch, channels)).2 := by
  have hfold := answered_foldl_send (l := l.commit calls batch) (batch.zipIdx l.commitSeq)
    Prod.fst (fun entry ↦ .ok entry.2) channels (by rwa [List.zipIdx_map_fst]) ?_
  · rw [List.zipIdx_map_fst] at hfold
    rw [foldl_commitStep]
    exact hfold
  · intro entry hentry
    change entry ∈ (l.commit calls batch).applied
    rw [Ledger.commit, Ledger.applied_foldl_apply]
    exact List.mem_append_right _ hentry

theorem Flushed.of_good {verdict : ℕ → Except EngineError Unit} {outcome : AppendOutcome}
    {channels channels' : Channels} {result : Except EngineError Unit}
    (hnew : (batch ++ l.settled).Nodup) (hvalid : l'.Valid calls base table)
    (hext : Ledger.Extends (batch.filter (passes verdict))
      (l.reject (batch.filter fun call ↦ !passes verdict call)) l')
    (hanswered : Answered (batch.filter (passes verdict)) l'
      ((batch.filterMap (refusal verdict)).foldl
        (fun channels answer ↦ channels.send answer.1 (.error answer.2)) channels) channels')
    (hdecided : ∀ call ∈ batch.filter (passes verdict), l'.Decided call (.ok ()) outcome)
    (hfailure : ∀ err, result = .error err → ∀ call ∈ batch.filter (passes verdict),
      call ∈ l'.failed) :
    Flushed calls base table verdict outcome batch l channels ((l', channels'), result) := by
  have hnodup : batch.Nodup := (List.nodup_append.mp hnew).1
  have hperm : ((batch.filter fun call ↦ !passes verdict call) ++
      batch.filter (passes verdict)).Perm batch :=
    List.perm_append_comm.trans (List.filter_append_perm (passes verdict) batch)
  have hbad : ∀ call ∈ batch, passes verdict call = false → call ∈ l'.rejected := by
    intro call hcall hpass
    refine hext.rejected (List.mem_append_right _ (List.mem_filter.mpr ⟨hcall, ?_⟩))
    simp [hpass]
  refine ⟨hvalid, (((l.extends_reject _).trans hext).congr hperm), ?_, ?_, ?_⟩
  · refine Answered.congr (((answered_refused channels hnodup verdict).mono hext).trans
      hanswered ?_) fun call ↦ hperm.mem_iff
    intro call hbad hgood
    have hno := (List.mem_filter.mp hbad).2
    have hyes := (List.mem_filter.mp hgood).2
    simp [hyes] at hno
  · intro call hcall
    cases hverdict : verdict call with
    | ok value => exact hdecided call (List.mem_filter.mpr ⟨hcall, by simp [passes, hverdict]⟩)
    | error err => exact hbad call hcall (by simp [passes, hverdict])
  · intro err herr call hcall
    by_cases hpass : passes verdict call = true
    · exact List.mem_append_right _
        (hfailure err herr call (List.mem_filter.mpr ⟨hcall, hpass⟩))
    · exact List.mem_append_left _ (hbad call hcall (by simpa using hpass))

theorem flushed_flushPendingBatch (h : l.Valid calls base table)
    (hnew : (batch ++ l.settled).Nodup) (channels : Channels)
    (verdict : ℕ → Except EngineError Unit) (outcome : AppendOutcome) :
    Flushed calls base table verdict outcome batch l channels
      (flushPendingBatch calls l channels batch verdict outcome) := by
  have hnodup : batch.Nodup := (List.nodup_append.mp hnew).1
  have hbad : ((batch.filter fun call ↦ !passes verdict call) ++ l.settled).Nodup :=
    hnew.sublist (List.filter_sublist.append_right _)
  have hvalid := h.reject hbad
  have hgood := nodup_good_append hnew verdict (l.extends_reject _)
  have hgoodNodup : (batch.filter (passes verdict)).Nodup := hnodup.filter _
  simp only [flushPendingBatch, preCommitAll_eq, map_fst_refusals]
  split
  next hnil =>
    refine .of_good hnew hvalid (.of_eq_nil hnil) ?_ ?_ ?_
    · rw [hnil]
      exact ⟨fun call hcall ↦ (by cases hcall), fun call _ ↦ rfl⟩
    · rw [hnil]
      exact fun call hcall ↦ by cases hcall
    · exact fun err herr ↦ nomatch herr
  next hne =>
    cases outcome with
    | failed frames err text =>
      refine .of_good hnew (hvalid.failAppend hgood frames) (Ledger.extends_failAppend _ _ _)
        (answered_failAppend hgoodNodup _ frames _) ?_ ?_
      · exact fun call hcall ↦ List.mem_append_right _ hcall
      · exact fun _ _ call hcall ↦ List.mem_append_right _ hcall
    | appended =>
      rw [foldl_commitStep_append]
      refine .of_good hnew (hvalid.commit hgood) (Ledger.extends_commit _ _)
        (answered_commit hgoodNodup _) ?_ ?_
      · intro call hcall
        change call ∈ (Ledger.commit calls _ _).logged
        rw [Ledger.commit, (Ledger.foldl_apply_frame _ _).2.2.2]
        exact List.mem_append_right _ hcall
      · exact fun err herr ↦ nomatch herr

theorem commitSingle_spec (h : l.Valid calls base table) {call : ℕ} (hnew : call ∉ l.settled)
    (verdict : Except EngineError Unit) (outcome : AppendOutcome) :
    (l.commitSingle calls call verdict outcome).1.Valid calls base table ∧
      Ledger.Extends [call] l (l.commitSingle calls call verdict outcome).1 ∧
      (l.commitSingle calls call verdict outcome).1.Answers call
        (l.commitSingle calls call verdict outcome).2 ∧
      (l.commitSingle calls call verdict outcome).1.Decided call verdict outcome := by
  have hnodup : ([call] ++ l.settled).Nodup := List.nodup_cons.mpr ⟨hnew, h.nodup⟩
  have hin : ∀ calls : List ℕ, call ∈ calls ++ [call] := fun calls ↦
    List.mem_append_right calls (.head _)
  cases verdict with
  | error err =>
    exact ⟨h.reject hnodup, l.extends_reject [call], List.mem_append_left _ (hin _), hin _⟩
  | ok value =>
    cases outcome with
    | failed frames err text =>
      exact ⟨h.failAppend hnodup frames, l.extends_failAppend [call] frames,
        List.mem_append_right _ (hin _), hin _⟩
    | appended =>
      exact ⟨h.commit hnodup, l.extends_commit [call],
        List.mem_append_right l.applied (.head _), hin _⟩

end Flush

/-! ## The batch and its requests one at a time -/

/-- A request commits on its own, and its caller gets the answer. -/
def commitAlone (calls : ℕ → WriteCall) (verdict : ℕ → Except EngineError Unit)
    (acc : Ledger × Channels) (call : ℕ) : Ledger × Channels :=
  let (l, result) := acc.1.commitSingle calls call (verdict call) .appended
  (l, acc.2.send call result)

theorem foldl_send_comm {answers : List (ℕ × EngineError)} {call : ℕ}
    (hne : ∀ answer ∈ answers, answer.1 ≠ call) (channels : Channels)
    (result : Except EngineError ℕ) :
    answers.foldl (fun channels answer ↦ channels.send answer.1 (.error answer.2))
        (channels.send call result) =
      (answers.foldl (fun channels answer ↦ channels.send answer.1 (.error answer.2))
        channels).send call result := by
  induction answers generalizing channels with
  | nil => rfl
  | cons answer answers ih =>
    have hhead : answer.1 ≠ call := hne answer (.head _)
    rw [List.foldl_cons, List.foldl_cons, ← ih fun other hother ↦ hne other (.tail _ hother)]
    congr 1
    simp only [Channels.send, Function.update_of_ne hhead, Function.update_of_ne hhead.symm]
    exact Function.update_comm hhead.symm _ _ _

theorem flushPendingBatch_appended (calls : ℕ → WriteCall) (l : Ledger)
    (channels : Channels) (batch : List ℕ) (verdict : ℕ → Except EngineError Unit) :
    flushPendingBatch calls l channels batch verdict .appended =
      ((batch.filter (passes verdict)).foldl (commitStep calls)
        ((l.reject ((batch.filterMap (refusal verdict)).map Prod.fst)).append calls
          (batch.filter (passes verdict)),
        (batch.filterMap (refusal verdict)).foldl
          (fun channels answer ↦ channels.send answer.1 (.error answer.2)) channels), .ok ()) := by
  simp only [flushPendingBatch, preCommitAll_eq]
  split_ifs with hnone
  · simp [hnone, Ledger.append, taggedFrames]
  · rfl

theorem flushPendingBatch_eq_commitAlone (calls : ℕ → WriteCall) (l : Ledger)
    (channels : Channels) (batch : List ℕ) (verdict : ℕ → Except EngineError Unit) :
    flushPendingBatch calls l channels batch verdict .appended =
      (batch.foldl (commitAlone calls verdict) (l, channels), .ok ()) := by
  rw [flushPendingBatch_appended]
  congr 1
  induction batch generalizing l channels with
  | nil => simp [Ledger.append, Ledger.reject, taggedFrames]
  | cons call batch ih =>
    rw [List.foldl_cons, ← ih]
    cases hverdict : verdict call with
    | error err =>
      simp [commitAlone, passes, refusal, hverdict, Ledger.commitSingle, Ledger.reject]
    | ok value =>
      -- Nobody who is refused is the caller: the answers go into different channels.
      have hothers : ∀ answer ∈ batch.filterMap (refusal verdict), answer.1 ≠ call := by
        rintro answer hanswer rfl
        obtain ⟨other, -, hother⟩ := List.mem_filterMap.mp hanswer
        rw [refusal] at hother
        split at hother
        next => cases hother
        next err herr =>
          cases hother
          cases hverdict.symm.trans herr
      simp [commitAlone, passes, refusal, hverdict, Ledger.commitSingle, Ledger.reject,
        Ledger.append, Ledger.apply, commitStep, foldl_send_comm hothers, taggedFrames]

end HatP
