import HatP.Wal.Recovery

/-!
# Appends that fail half way

A failed append leaves what it has written in the file, and the next append
goes after it.  Recovery stops at the first frame that it cannot read, so a
commit that is acknowledged later is only found when the log in front of it is
whole.
-/

namespace HatP

open FramedLog Transition

namespace PendingWrite

def group (w : PendingWrite) : ℕ × List WalRecord :=
  (w.txId, w.mutations.map (Mutation.walRecord w.txId))

end PendingWrite

/-- A log file with the commits that were answered `Ok` and the ones whose
frames are completely in the file. -/
structure AppendLog where
  wal : Bytes
  acked : List PendingWrite
  completed : List PendingWrite

/-- An append of a batch, which succeeds or fails after some of its bytes. -/
inductive AppendOp
  | append (batch : List PendingWrite)
  | appendFailing (batch : List PendingWrite) (written : ℕ)

def AppendOp.batch : AppendOp → List PendingWrite
  | .append batch => batch
  | .appendFailing batch _ => batch

namespace AppendLog

def initial : AppendLog := ⟨[], [], []⟩

/-- A batch that cannot be encoded is refused before anything is written. -/
def step (s : AppendLog) : AppendOp → Option AppendLog
  | .append batch =>
    match Wal.encodeMultiMutations batch with
    | .error _ => some s
    | .ok bytes =>
      some ⟨s.wal ++ bytes, s.acked ++ batch, s.completed ++ batch⟩
  | .appendFailing batch written =>
    match Wal.encodeMultiMutations batch with
    | .error _ => some s
    | .ok bytes =>
      if written < bytes.length then
        some ⟨s.wal ++ bytes.take written, s.acked,
          s.completed ++ complete PendingWrite.bytes written batch⟩
      else none

/-- Recovery finds every acknowledged commit, and only commits that are
completely in the file. -/
def AcksRecovered (s : AppendLog) : Prop :=
  match Wal.recover s.wal with
  | .error _ => s.acked = []
  | .ok (records, _) =>
    ∃ replayed, (Replay.start 0).run records = .ok replayed ∧
      List.Sublist (s.acked.map PendingWrite.group) replayed.applied ∧
      List.Sublist replayed.applied (s.completed.map PendingWrite.group)

/-- The last of these records that belongs to the transaction, if there is one,
ends it. -/
def Settled (records : List WalRecord) (txId : ℕ) : Prop :=
  ∀ r ∈ (records.filter fun r ↦ r.txId = txId).getLast?, r.op = .commit ∨ r.op = .abort

/-- The condition on appends: the file in front of it is whole frames, none of
them belongs to an unfinished transaction of the batch, and no length of the
batch is the one that the decoder misreads. -/
def CleanAppend (s : AppendLog) (op : AppendOp) : Prop :=
  (∀ w ∈ op.batch, w.Representable) ∧
    ∃ records, s.wal = records.flatMap Wal.frameBytes ∧
      (∀ record ∈ records, Wal.InRange record) ∧ ∀ w ∈ op.batch, Settled records w.txId

/-- The log is frames that replay to the completed commits, and a torn tail. -/
structure Inv (s : AppendLog) : Prop where
  log : ∃ records tail replayed, s.wal = records.flatMap Wal.frameBytes ++ tail ∧
    (∀ record ∈ records, Wal.InRange record) ∧ Wal.IsTorn tail ∧
    (Replay.start 0).run records = .ok replayed ∧
    replayed.applied = s.completed.map PendingWrite.group
  acked : List.Sublist s.acked s.completed

variable {records : List WalRecord}

theorem inv_initial : Inv initial where
  log := ⟨[], [], Replay.start 0, rfl, fun _ h ↦ (by cases h), .inl rfl, rfl, rfl⟩
  acked := List.Sublist.refl []

variable {s : AppendLog}

theorem Inv.acksRecovered (h : Inv s) : s.AcksRecovered := by
  obtain ⟨records, tail, replayed, hwal, hrecords, htail, hrun, happlied⟩ := h.log
  have hsub : List.Sublist (s.acked.map PendingWrite.group)
      (s.completed.map PendingWrite.group) := h.acked.map _
  unfold AcksRecovered
  by_cases hnil : records = []
  · subst hnil
    cases hrun
    have hcompleted : s.completed = [] := List.map_eq_nil_iff.mp happlied.symm
    have hacked : s.acked = [] := List.sublist_nil.mp (hcompleted ▸ h.acked)
    have hall := Wal.decodeAll_append hrecords htail
    rw [hwal, Wal.recover]
    split
    · exact hacked
    · rename_i records last hok
      have hrecover : records = [] := by
        split at hok
        · cases hok
          rfl
        · split at hok
          · cases hok
          · rw [hall] at hok
            cases hok
            rfl
      rw [hrecover, hacked, hcompleted]
      exact ⟨Replay.start 0, rfl, List.Sublist.refl _, List.Sublist.refl _⟩
  · rw [hwal, Wal.recover_append hrecords htail hnil]
    exact ⟨replayed, hrun, happlied ▸ hsub, happlied ▸ List.Sublist.refl _⟩

theorem pending_of_settled {replayed : Replay} {txId : ℕ}
    (hrun : (Replay.start 0).run records = .ok replayed) (hsettled : Settled records txId) :
    replayed.pending[txId]? = none := by
  induction records using List.reverseRecOn generalizing replayed with
  | nil =>
    cases hrun
    simp [Replay.start]
  | append_singleton records record ih =>
    rw [Replay.run_append] at hrun
    obtain ⟨before, hbefore, hlast⟩ := Fallible.bind_eq_ok hrun
    obtain ⟨_, hstep, ⟨⟩⟩ := Fallible.bind_eq_ok hlast
    by_cases hid : record.txId = txId
    · have hend : record.op = .commit ∨ record.op = .abort := by
        apply hsettled record
        simp [List.filter_append, hid]
      exact hid ▸ Replay.pending_step_of_end hstep hend
    · rw [Replay.pending_step_of_ne hstep hid]
      refine ih hbefore fun r hr ↦ hsettled r ?_
      simpa [List.filter_append, hid] using hr

theorem Inv.clean (h : Inv s) {op : AppendOp} (hclean : s.CleanAppend op) :
    ∃ records replayed, s.wal = records.flatMap Wal.frameBytes ∧
      (∀ record ∈ records, Wal.InRange record) ∧
      (Replay.start 0).run records = .ok replayed ∧
      replayed.applied = s.completed.map PendingWrite.group ∧
      ∀ w ∈ op.batch, replayed.pending[w.txId]? = none := by
  obtain ⟨records, tail, replayed, hwal, hrecords, htail, hrun, happlied⟩ := h.log
  obtain ⟨-, found, hfound, hrange, hsettled⟩ := hclean
  -- the frames of the file are determined by its bytes
  have hsame : found = records := by
    have hold := Wal.decodeAll_append hrecords htail
    have hnew := Wal.decodeAll_append hrange (.inl rfl)
    rw [List.append_nil, ← hfound, hwal, hold] at hnew
    exact (Prod.mk.inj (Except.ok.inj hnew)).1.symm
  subst hsame
  exact ⟨found, replayed, hfound, hrange, hrun, happlied,
    fun w hw ↦ pending_of_settled hrun (hsettled w hw)⟩

theorem inv_append {replayed : Replay} {batch : List PendingWrite}
    {acked completed : List PendingWrite} (n : ℕ)
    (hrecords : ∀ record ∈ records, Wal.InRange record)
    (hrun : (Replay.start 0).run records = .ok replayed)
    (happlied : replayed.applied = completed.map PendingWrite.group)
    (hfresh : ∀ w ∈ batch, replayed.pending[w.txId]? = none) (hbatch : ∀ w ∈ batch, w.InRange)
    (hacked : List.Sublist acked
      (completed ++ complete PendingWrite.bytes n batch)) :
    Inv ⟨records.flatMap Wal.frameBytes ++ (batch.flatMap PendingWrite.bytes).take n, acked,
      completed ++ complete PendingWrite.bytes n batch⟩ := by
  have hframes := PendingWrite.inRange_flatMap_frames hbatch
  obtain ⟨final, hfinal, -, -, hfinalApplied⟩ := replayed.run_complete_frames n hfresh
  refine ⟨⟨records ++ complete Wal.frameBytes n (batch.flatMap PendingWrite.frames),
    leftover Wal.frameBytes n (batch.flatMap PendingWrite.frames), final, ?_, ?_,
    Wal.isTorn_leftover n hframes, ?_, ?_⟩, hacked⟩
  · rw [PendingWrite.flatMap_bytes, take_flatMap, List.flatMap_append, List.append_assoc]
  · intro r hr
    cases List.mem_append.mp hr with
    | inl hold => exact hrecords r hold
    | inr hnew => exact hframes r ((prefix_complete n _).subset hnew)
  · rw [Replay.run_append, hrun]
    exact hfinal
  · rw [hfinalApplied, Replay.applied_foldl_install, happlied, List.map_append]
    rfl

/-! ## Whole runs -/

section Step

variable {batch : List PendingWrite} {bytes : Bytes}

theorem step_append (hok : Wal.encodeMultiMutations batch = .ok bytes) :
    s.step (.append batch) = some ⟨s.wal ++ bytes, s.acked ++ batch, s.completed ++ batch⟩ := by
  rw [AppendLog.step, hok]

theorem step_refused {err : EngineError} {op : AppendOp}
    (herr : Wal.encodeMultiMutations op.batch = .error err) : s.step op = some s := by
  cases op with
  | append batch | appendFailing batch written =>
    rw [AppendOp.batch] at herr
    rw [AppendLog.step, herr]

end Step

theorem Inv.step (h : Inv s) {op : AppendOp} {s' : AppendLog} (hclean : s.CleanAppend op)
    (hstep : s.step op = some s') : Inv s' := by
  obtain ⟨records, replayed, hwal, hrecords, hrun, happlied, hfresh⟩ := h.clean hclean
  rcases Wal.encodeMultiMutations_cases hclean.1 with ⟨err, herr⟩ | ⟨hrange, hok⟩
  · rw [step_refused herr] at hstep
    cases hstep
    exact h
  cases op with
  | append batch =>
    simp only [AppendOp.batch] at hfresh hrange hok
    have hall : complete PendingWrite.bytes (batch.flatMap PendingWrite.bytes).length
        batch = batch := complete_of_le (Nat.le_refl _)
    have hinv := inv_append (batch.flatMap PendingWrite.bytes).length hrecords hrun happlied
      hfresh hrange (hall.symm ▸ h.acked.append (List.Sublist.refl batch))
    rw [List.take_length, hall, ← hwal] at hinv
    rw [step_append hok] at hstep
    cases hstep
    exact hinv
  | appendFailing batch written =>
    simp only [AppendOp.batch] at hfresh hrange hok
    simp only [AppendLog.step, hok] at hstep
    split at hstep
    · cases hstep
      rw [hwal]
      exact inv_append written hrecords hrun happlied hfresh hrange
        (h.acked.trans (List.sublist_append_left _ _))
    · cases hstep

/-- Acknowledged commits are recovered, and nothing that was not written
completely. -/
theorem acksRecovered_along {ops : List AppendOp}
    (hmeet : StepsMeet AppendLog.step CleanAppend initial ops) :
    Along AppendLog.step AcksRecovered initial ops :=
  hmeet.along (I := Inv) (fun _ _ _ h hclean hstep ↦ h.step hclean hstep)
    (fun _ h ↦ h.acksRecovered) inv_initial

def firstWrite : PendingWrite := .ofCons 0 (.put [107] [1]) []

def secondWrite : PendingWrite := .ofCons 1 (.put [107] [2]) []

/-- A commit, and one that fails in the middle of its commit frame. -/
theorem acksRecovered_along_tornLast :
    Along AppendLog.step AcksRecovered initial
      [.append [firstWrite], .appendFailing [secondWrite] 40] := by
  have hfirst : firstWrite.InRange := ⟨by decide, by decide, by decide⟩
  have hencoded := Wal.encodeMultiMutations_eq_ok fun w hw ↦
    (List.mem_singleton.mp hw) ▸ hfirst
  have hrepresentable : ∀ w : PendingWrite, w = firstWrite ∨ w = secondWrite → w.Representable := by
    intro w hw
    rcases hw with rfl | rfl
    · exact ⟨by decide, by decide⟩
    · exact ⟨by decide, by decide⟩
  refine acksRecovered_along ?_
  intro s hs
  rw [step_append hencoded] at hs
  cases hs
  refine ⟨⟨fun w hw ↦ hrepresentable w (.inl (List.mem_singleton.mp hw)), [], rfl,
    fun _ h ↦ (by cases h), fun w _ r hr ↦ by cases hr⟩, ?_⟩
  intro s hs
  refine ⟨⟨fun w hw ↦ hrepresentable w (.inr (List.mem_singleton.mp hw)), firstWrite.frames, ?_,
    hfirst.frames, ?_⟩, trivial⟩
  · simp [initial, PendingWrite.bytes]
  · intro w hw
    rw [List.mem_singleton.mp hw]
    intro r hr
    cases hr

/-- The next commit after a torn one is acknowledged and lost. -/
theorem torn_append_hides_commit :
    (∃ s, run AppendLog.step initial
        [.appendFailing [firstWrite] 10, .append [secondWrite]] = some s ∧
      s.acked = [secondWrite] ∧ (∃ err, Wal.recover s.wal = .error err) ∧ ¬s.AcksRecovered) ∧
    ∃ s, run AppendLog.step initial
        [.appendFailing [firstWrite] 25, .append [secondWrite]] = some s ∧
      s.acked = [secondWrite] ∧ Wal.recover s.wal = .ok ([], 0) ∧ ¬s.AcksRecovered := by
  have hlost : ∀ s : AppendLog, s.acked = [secondWrite] → Wal.recover s.wal = .ok ([], 0) →
      ¬s.AcksRecovered := by
    intro s hacked hrecover h
    rw [AcksRecovered, hrecover, hacked] at h
    obtain ⟨replayed, hrun, hfound, -⟩ := h
    cases hrun
    cases hfound
  have hrefused : ∀ (s : AppendLog) (err : EngineError), s.acked = [secondWrite] →
      Wal.recover s.wal = .error err → ¬s.AcksRecovered := by
    intro s err hacked hrecover h
    rw [AcksRecovered, hrecover, hacked] at h
    cases h
  refine ⟨⟨_, rfl, rfl, ⟨_, rfl⟩, hrefused _ _ rfl rfl⟩, ⟨_, rfl, rfl, ?_, hlost _ rfl ?_⟩⟩
  · decide +kernel
  · decide +kernel

end AppendLog

end HatP
