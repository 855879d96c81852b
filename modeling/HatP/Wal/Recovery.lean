import HatP.Invariant
import HatP.Wal.Codec

/-!
# Replaying the log

`Engine::open` collects the records of each transaction until its commit frame
arrives and then installs them under the next commit timestamp.  On a log of
which any tail is missing this rebuilds the memtable that the live engine had
after the commits that are completely there.
-/

namespace HatP

open FramedLog PendingWrite
open Std (ExtTreeMap LawfulEqCmp)

/-! ## The replay loop -/

namespace MemTable

def applyRecord (table : MemTable) (commitTs : ℕ) (record : WalRecord) :
    Except EngineError MemTable :=
  match record.op with
  | .put =>
    match record.value with
    | none => .error (.corrupt "put WAL record has no value")
    | some value =>
      .ok (table.alter record.key fun entry ↦
        some ((entry.getD .empty).insert (.live value commitTs record.txId)))
  | .delete =>
    .ok (table.alter record.key fun entry ↦
      some ((entry.getD .empty).insert (.tombstone commitTs record.txId)))
  | .commit => .ok table
  | .abort => .ok table

def applyRecordsBatch (table : MemTable) (records : List WalRecord) (commitTs : ℕ) :
    Except EngineError MemTable :=
  records.foldlM (fun table record ↦ table.applyRecord commitTs record) table

theorem applyRecordsBatch_walRecord (table : MemTable) (txId commitTs : ℕ)
    (mutations : List Mutation) :
    table.applyRecordsBatch (mutations.map (Mutation.walRecord txId)) commitTs =
      .ok (table.applyMutationsBatch txId mutations commitTs) := by
  induction mutations generalizing table with
  | nil => rfl
  | cons m mutations ih =>
    have hrecord : table.applyRecord commitTs (m.walRecord txId) =
        .ok (table.applyMutation txId commitTs m) := by
      cases m <;> rfl
    have hrest := ih (table.applyMutation txId commitTs m)
    simp only [applyRecordsBatch, List.map_cons, List.foldlM_cons, hrecord] at hrest ⊢
    exact hrest

end MemTable

/-- The state of the loop.  `applied` lists the transactions whose commit frame
was found, with their records; the source does not keep it. -/
structure Replay where
  pending : ExtTreeMap ℕ (List WalRecord)
  highestTx : ℕ
  nextCommitTs : ℕ
  memtable : MemTable
  applied : List (ℕ × List WalRecord)

namespace Replay

variable {st st' : Replay} {record : WalRecord} {mutations : List Mutation}

def start (sstMaxCommit : ℕ) : Replay := ⟨∅, 0, sstMaxCommit + 1, ∅, []⟩

def step (st : Replay) (record : WalRecord) : Except EngineError Replay :=
  let st := { st with highestTx := max st.highestTx record.txId }
  match record.op with
  | .put | .delete =>
    .ok { st with
      pending := st.pending.alter record.txId fun records ↦ some (records.getD [] ++ [record]) }
  | .commit =>
    match st.pending[record.txId]? with
    | none => .ok st
    | some records => do
      let memtable ← st.memtable.applyRecordsBatch records st.nextCommitTs
      return { st with
        pending := st.pending.erase record.txId
        nextCommitTs := st.nextCommitTs + 1
        memtable := memtable
        applied := st.applied ++ [(record.txId, records)] }
  | .abort => .ok { st with pending := st.pending.erase record.txId }

def run (st : Replay) (records : List WalRecord) : Except EngineError Replay :=
  records.foldlM step st

theorem run_append (st : Replay) (xs ys : List WalRecord) :
    st.run (xs ++ ys) = (st.run xs).bind fun st ↦ st.run ys := by
  rw [run, List.foldlM_append]
  rfl

section

variable (hstep : st.step record = .ok st')

include hstep

theorem step_cases :
    ((record.op = .put ∨ record.op = .delete) ∧ st' = { st with
      highestTx := max st.highestTx record.txId
      pending := st.pending.alter record.txId fun records ↦
        some (records.getD [] ++ [record]) }) ∨
    (record.op = .commit ∧ st.pending[record.txId]? = none ∧
      st' = { st with highestTx := max st.highestTx record.txId }) ∨
    (∃ records memtable, record.op = .commit ∧ st.pending[record.txId]? = some records ∧
      st.memtable.applyRecordsBatch records st.nextCommitTs = .ok memtable ∧
      st' = {
        pending := st.pending.erase record.txId
        highestTx := max st.highestTx record.txId
        nextCommitTs := st.nextCommitTs + 1
        memtable := memtable
        applied := st.applied ++ [(record.txId, records)] }) ∨
    (record.op = .abort ∧ st' = { st with
      highestTx := max st.highestTx record.txId
      pending := st.pending.erase record.txId }) := by
  cases hop : record.op with
  | put =>
    rw [step, hop] at hstep
    exact .inl ⟨.inl rfl, (Except.ok.inj hstep).symm⟩
  | delete =>
    rw [step, hop] at hstep
    exact .inl ⟨.inr rfl, (Except.ok.inj hstep).symm⟩
  | commit =>
    rw [step, hop] at hstep
    dsimp only at hstep
    split at hstep
    next hnone => exact .inr (.inl ⟨rfl, hnone, (Except.ok.inj hstep).symm⟩)
    next records hpending =>
      obtain ⟨memtable, happly, hdone⟩ := Fallible.bind_eq_ok hstep
      exact .inr (.inr (.inl ⟨records, memtable, rfl, hpending, happly,
        (Except.ok.inj hdone).symm⟩))
  | abort =>
    rw [step, hop] at hstep
    exact .inr (.inr (.inr ⟨rfl, (Except.ok.inj hstep).symm⟩))

theorem pending_step_of_end (hend : record.op = .commit ∨ record.op = .abort) :
    st'.pending[record.txId]? = none := by
  rcases step_cases hstep with ⟨hop, -⟩ | ⟨-, hnone, rfl⟩ | ⟨_, _, -, -, -, rfl⟩ | ⟨-, rfl⟩
  · rcases hop with hop | hop <;> simp [hop] at hend
  · exact hnone
  · exact ExtTreeMap.getElem?_erase_self
  · exact ExtTreeMap.getElem?_erase_self

theorem pending_step_of_ne {txId : ℕ} (hid : record.txId ≠ txId) :
    st'.pending[txId]? = st.pending[txId]? := by
  have hcompare : compare record.txId txId ≠ .eq := fun h ↦
    hid (LawfulEqCmp.eq_of_compare h)
  rcases step_cases hstep with ⟨-, rfl⟩ | ⟨-, -, rfl⟩ | ⟨_, _, -, -, -, rfl⟩ | ⟨-, rfl⟩
  · rw [ExtTreeMap.getElem?_alter, if_neg hcompare]
  · rfl
  · rw [ExtTreeMap.getElem?_erase, if_neg hcompare]
  · rw [ExtTreeMap.getElem?_erase, if_neg hcompare]

end

theorem step_walRecord (st : Replay) (txId : ℕ) (m : Mutation) :
    st.step (m.walRecord txId) =
      .ok { st with
        pending := st.pending.insert txId ((st.pending[txId]?).getD [] ++ [m.walRecord txId])
        highestTx := max st.highestTx txId } := by
  have hpending : (st.pending.alter txId fun records ↦
      some (records.getD [] ++ [m.walRecord txId])) =
        st.pending.insert txId ((st.pending[txId]?).getD [] ++ [m.walRecord txId]) := by
    apply ExtTreeMap.ext_getElem?
    intro id
    rw [ExtTreeMap.getElem?_alter, ExtTreeMap.getElem?_insert]
  rw [← hpending]
  cases m <;> rfl

theorem run_walRecords (st : Replay) (txId : ℕ) (hne : mutations ≠ []) :
    st.run (mutations.map (Mutation.walRecord txId)) =
      .ok { st with
        pending := st.pending.insert txId
          ((st.pending[txId]?).getD [] ++ mutations.map (Mutation.walRecord txId))
        highestTx := max st.highestTx txId } := by
  induction mutations generalizing st with
  | nil => exact absurd rfl hne
  | cons m mutations ih =>
    rw [List.map_cons, run, List.foldlM_cons, step_walRecord]
    by_cases hrest : mutations = []
    · subst hrest
      rfl
    · have htail := ih { st with
        pending := st.pending.insert txId ((st.pending[txId]?).getD [] ++ [m.walRecord txId])
        highestTx := max st.highestTx txId } hrest
      have hpending : ∀ old new : List WalRecord,
          (st.pending.insert txId old).insert txId new = st.pending.insert txId new := by
        intro old new
        apply ExtTreeMap.ext_getElem?
        intro id
        simp only [ExtTreeMap.getElem?_insert]
        split <;> rfl
      simp only [hpending, ExtTreeMap.getElem?_insert_self, Option.getD_some, max_assoc,
        max_self, List.append_assoc, List.singleton_append] at htail
      exact htail

theorem run_encodeMutations (st : Replay) {txId : ℕ}
    (hne : mutations ≠ []) (hfresh : st.pending[txId]? = none) :
    st.run (encodeMutations txId mutations) =
      .ok { st with
        highestTx := max st.highestTx txId
        nextCommitTs := st.nextCommitTs + 1
        memtable := st.memtable.applyMutationsBatch txId mutations st.nextCommitTs
        applied := st.applied ++ [(txId, mutations.map (Mutation.walRecord txId))] } := by
  have hpending : ∀ records : List WalRecord,
      (st.pending.insert txId records).erase txId = st.pending := by
    intro records
    apply ExtTreeMap.ext_getElem?
    intro id
    rw [ExtTreeMap.getElem?_erase]
    split
    · rename_i heq
      rw [← LawfulEqCmp.eq_of_compare heq, hfresh]
    · rename_i hne
      rw [ExtTreeMap.getElem?_insert, if_neg hne]
  rw [encodeMutations, run_append, run_walRecords st txId hne, hfresh]
  simp only [Except.bind, run, List.foldlM_cons, List.foldlM_nil, step, Option.getD_none,
    List.nil_append, ExtTreeMap.getElem?_insert_self, MemTable.applyRecordsBatch_walRecord,
    hpending, max_assoc, max_self]
  rfl

def install (st : Replay) (w : PendingWrite) : Replay :=
  { st with
    highestTx := max st.highestTx w.txId
    nextCommitTs := st.nextCommitTs + 1
    memtable := st.memtable.applyMutationsBatch w.txId w.mutations st.nextCommitTs
    applied := st.applied ++ [(w.txId, w.mutations.map (Mutation.walRecord w.txId))] }

theorem run_commits (st : Replay) (commits : List PendingWrite)
    (hfresh : ∀ w ∈ commits, st.pending[w.txId]? = none) :
    st.run (commits.flatMap frames) = .ok (commits.foldl install st) := by
  induction commits generalizing st with
  | nil => rfl
  | cons w commits ih =>
    have hhead := run_encodeMutations st w.nonempty (hfresh w (.head _))
    have htail := ih (st.install w) fun other hother ↦
      hfresh other (List.mem_cons_of_mem w hother)
    rw [List.flatMap_cons, run_append, frames, hhead]
    exact htail

theorem applied_foldl_install (st : Replay) (commits : List PendingWrite) :
    (commits.foldl install st).applied = st.applied ++
      commits.map fun w ↦ (w.txId, w.mutations.map (Mutation.walRecord w.txId)) := by
  induction commits generalizing st with
  | nil => simp
  | cons w commits ih =>
    rw [List.foldl_cons, ih]
    simp [install]

theorem take_frames (w : PendingWrite) {k : ℕ} (hk : k < w.frames.length) :
    w.frames.take k = (w.mutations.take k).map (Mutation.walRecord w.txId) := by
  have hle : k ≤ (w.mutations.map (Mutation.walRecord w.txId)).length := by
    rw [frames, encodeMutations, List.length_append, List.length_singleton] at hk
    omega
  rw [frames, encodeMutations, List.take_append_of_le_length hle, List.map_take]

theorem run_take_frames (st : Replay) (w : PendingWrite) {k : ℕ} (hk : k < w.frames.length) :
    ∃ st', st.run (w.frames.take k) = .ok st' ∧ st'.memtable = st.memtable ∧
      st'.nextCommitTs = st.nextCommitTs ∧ st'.applied = st.applied ∧
      ∀ id, id ≠ w.txId → st'.pending[id]? = st.pending[id]? := by
  rw [take_frames w hk]
  by_cases hnil : w.mutations.take k = []
  · rw [hnil]
    exact ⟨st, rfl, rfl, rfl, rfl, fun _ _ ↦ rfl⟩
  · refine ⟨_, run_walRecords st w.txId hnil, rfl, rfl, rfl, fun id hid ↦ ?_⟩
    simp [ExtTreeMap.getElem?_insert, Ne.symm hid]

end Replay

/-! ## The live engine -/

namespace PendingWrite

/-- Every key and value of the write is shorter than the length that stands for
an absent value. -/
structure InRange (w : PendingWrite) : Prop where
  txId : w.txId < 2 ^ 64
  key : ∀ m ∈ w.mutations, m.key.length < Wal.valueNone
  value : ∀ m ∈ w.mutations, (m.value.getD []).length < Wal.valueNone

theorem InRange.frames {w : PendingWrite} (h : w.InRange) : ∀ r ∈ w.frames, Wal.InRange r := by
  intro r hr
  cases List.mem_append.mp hr with
  | inl hmem =>
    obtain ⟨m, hm, rfl⟩ := List.mem_map.mp hmem
    have hkey := h.key m hm
    have hvalue := h.value m hm
    cases m with
    | put key value => exact ⟨h.txId, hkey, hvalue, fun hop ↦ absurd rfl hop⟩
    | delete key => exact ⟨h.txId, hkey, hvalue, fun _ ↦ rfl⟩
  | inr hcommit =>
    obtain rfl := List.mem_singleton.mp hcommit
    exact ⟨h.txId, by simp [Wal.valueNone], by simp [Wal.valueNone], fun _ ↦ rfl⟩

def bytes (w : PendingWrite) : Bytes := w.frames.flatMap Wal.frameBytes

theorem InRange.encodeMutations {w : PendingWrite} (h : w.InRange) :
    Wal.encodeMutations w.txId w.mutations = .ok w.bytes :=
  Wal.encodeRecords_eq_ok_iff.mpr ⟨fun r hr ↦ (h.frames r hr).fits, rfl⟩

theorem inRange_flatMap_frames {commits : List PendingWrite} (h : ∀ w ∈ commits, w.InRange) :
    ∀ r ∈ commits.flatMap frames, Wal.InRange r := by
  intro r hr
  obtain ⟨w, hw, hmem⟩ := List.mem_flatMap.mp hr
  exact (h w hw).frames r hmem

theorem flatMap_bytes (commits : List PendingWrite) :
    commits.flatMap bytes = (commits.flatMap frames).flatMap Wal.frameBytes := by
  rw [List.flatMap_assoc]
  rfl

end PendingWrite

/-- The frames that a cut leaves of some transactions: the complete ones are
installed and the frames of an unfinished one are only collected. -/
theorem Replay.run_complete_frames (st : Replay) (n : ℕ) {commits : List PendingWrite}
    (hfresh : ∀ w ∈ commits, st.pending[w.txId]? = none) :
    ∃ final, st.run (complete Wal.frameBytes n (commits.flatMap frames)) =
        .ok final ∧
      let installed := (complete bytes n commits).foldl install st
      final.memtable = installed.memtable ∧ final.nextCommitTs = installed.nextCommitTs ∧
        final.applied = installed.applied := by
  obtain ⟨rest, hsplit, hrest⟩ := complete_flatMap Wal.frameBytes
    frames n commits
  have hsub : complete bytes n commits ⊆ commits :=
    (prefix_complete n commits).subset
  have hcommits := st.run_commits (complete bytes n commits)
    fun w hw ↦ hfresh w (hsub hw)
  have hrun : ∀ rest, st.run ((complete bytes n commits).flatMap
      frames ++ rest) =
        ((complete bytes n commits).foldl install st).run rest := by
    intro rest
    rw [run_append, hcommits]
    rfl
  rw [hsplit]
  refine hrun rest ▸ ?_
  rcases hrest with rfl | ⟨w, _, k, hk, rfl⟩
  · exact ⟨_, rfl, rfl, rfl, rfl⟩
  · obtain ⟨final, hfinal, hmemtable, hnext, happlied, -⟩ := run_take_frames
      ((complete bytes n commits).foldl install st) w hk
    exact ⟨final, hfinal, hmemtable, hnext, happlied⟩

def Wal.encodeMultiMutations : List PendingWrite → Except EngineError Bytes
  | [] => .ok []
  | w :: batch => do
    let bytes ← Wal.encodeMutations w.txId w.mutations
    let rest ← Wal.encodeMultiMutations batch
    return bytes ++ rest

variable {batch : List PendingWrite}

theorem Wal.encodeMultiMutations_eq_ok_iff {result : Bytes} :
    Wal.encodeMultiMutations batch = .ok result ↔
      (∀ w ∈ batch, ∀ r ∈ w.frames, Wal.Fits r) ∧ result = batch.flatMap bytes :=
  encodeAll_eq_ok_iff Wal.encodeMultiMutations rfl (fun _ _ ↦ rfl)
    fun _ _ ↦ Wal.encodeRecords_eq_ok_iff

theorem Wal.encodeMultiMutations_eq_ok (h : ∀ w ∈ batch, w.InRange) :
    Wal.encodeMultiMutations batch = .ok (batch.flatMap bytes) :=
  Wal.encodeMultiMutations_eq_ok_iff.mpr
    ⟨fun w hw r hr ↦ ((h w hw).frames r hr).fits, rfl⟩

/-- Neither the key nor the value has the length that stands for an absent
value. -/
def Mutation.Representable (m : Mutation) : Prop :=
  m.key.length ≠ Wal.valueNone ∧ (m.value.getD []).length ≠ Wal.valueNone

instance (m : Mutation) : Decidable m.Representable := inferInstanceAs (Decidable (_ ∧ _))

/-- What is left to require of a write whose frames could be encoded. -/
structure PendingWrite.Representable (w : PendingWrite) : Prop where
  txId : w.txId < 2 ^ 64
  mutations : ∀ m ∈ w.mutations, m.Representable

theorem PendingWrite.Representable.inRange {w : PendingWrite} (h : w.Representable)
    (hfits : ∀ r ∈ w.frames, Wal.Fits r) : w.InRange := by
  have hframe : ∀ m ∈ w.mutations, m.walRecord w.txId ∈ encodeMutations w.txId w.mutations :=
    fun m hm ↦ List.mem_append_left _ (List.mem_map_of_mem hm)
  refine ⟨h.txId, fun m hm ↦ ?_, fun m hm ↦ ?_⟩
  · have hle := (hfits _ (hframe m hm)).1
    refine Nat.lt_of_le_of_ne ?_ (h.mutations m hm).1
    cases m <;> exact hle
  · have hle := (hfits _ (hframe m hm)).2
    refine Nat.lt_of_le_of_ne ?_ (h.mutations m hm).2
    cases m <;> exact hle

theorem Wal.encodeMultiMutations_cases (h : ∀ w ∈ batch, w.Representable) :
    (∃ err, Wal.encodeMultiMutations batch = .error err) ∨
      (∀ w ∈ batch, w.InRange) ∧
        Wal.encodeMultiMutations batch = .ok (batch.flatMap bytes) := by
  cases hresult : Wal.encodeMultiMutations batch with
  | error err => exact .inl ⟨err, rfl⟩
  | ok result =>
    obtain ⟨hfits, rfl⟩ := Wal.encodeMultiMutations_eq_ok_iff.mp hresult
    exact .inr ⟨fun w hw ↦ (h w hw).inRange (hfits w hw), rfl⟩

/-- An engine and its log file. -/
structure LoggedEngine where
  engine : Engine
  wal : Bytes

def Engine.afterCommits (e : Engine) (commits : List PendingWrite) : Engine :=
  commits.foldl (fun e w ↦ e.committed w.txId w.mutations) e

namespace LoggedEngine

def initial : LoggedEngine := ⟨.initial, []⟩

def commitBatch (st : LoggedEngine) (batch : List PendingWrite) :
    Except EngineError LoggedEngine := do
  let bytes ← Wal.encodeMultiMutations batch
  return ⟨st.engine.afterCommits batch, st.wal ++ bytes⟩

def commitBatches (st : LoggedEngine) (batches : List (List PendingWrite)) :
    Except EngineError LoggedEngine :=
  batches.foldlM commitBatch st

theorem commitBatches_eq_ok (st : LoggedEngine) {batches : List (List PendingWrite)}
    (h : ∀ batch ∈ batches, ∀ w ∈ batch, w.InRange) :
    st.commitBatches batches = .ok ⟨st.engine.afterCommits batches.flatten,
      st.wal ++ batches.flatten.flatMap bytes⟩ := by
  induction batches generalizing st with
  | nil => simp [commitBatches, Engine.afterCommits, pure, Except.pure]
  | cons batch batches ih =>
    have hbatch := Wal.encodeMultiMutations_eq_ok (h batch (.head _))
    have hrest := ih ⟨st.engine.afterCommits batch, st.wal ++ batch.flatMap bytes⟩
      fun other hother ↦ h other (List.mem_cons_of_mem batch hother)
    have hcommit : st.commitBatch batch = .ok ⟨st.engine.afterCommits batch,
        st.wal ++ batch.flatMap bytes⟩ := by
      simp [commitBatch, hbatch, bind, Except.bind, pure, Except.pure]
    rw [commitBatches, List.foldlM_cons, hcommit]
    refine hrest.trans ?_
    simp [Engine.afterCommits, List.append_assoc]

end LoggedEngine

/-- Replay gives the commits the timestamps that the engine gave them. -/
theorem Replay.install_live (st : Replay) (e : Engine) (commits : List PendingWrite)
    (hmemtable : st.memtable = e.memtable) (hnext : st.nextCommitTs = e.commitSeq) :
    (commits.foldl install st).memtable = (e.afterCommits commits).memtable ∧
      (commits.foldl install st).nextCommitTs = (e.afterCommits commits).commitSeq := by
  induction commits generalizing st e with
  | nil => exact ⟨hmemtable, hnext⟩
  | cons w commits ih =>
    apply ih (st.install w) (e.committed w.txId w.mutations)
    · simp [install, Engine.committed, hmemtable, hnext]
    · simp [install, Engine.committed, hnext]

/-- The batches are committed, and from the first `n` bytes of the log recovery
decodes the complete frames and rebuilds the memtable and the commit sequence
that the engine had after the commits whose frames, the commit frame included,
lie inside those bytes. -/
def RecoversPrefix (batches : List (List PendingWrite)) (n : ℕ) : Prop :=
  ∃ st, LoggedEngine.initial.commitBatches batches = .ok st ∧
    let frames := complete Wal.frameBytes n (batches.flatten.flatMap frames)
    let committed := complete bytes n batches.flatten
    Wal.decodeAll (st.wal.take n) = .ok (frames, (frames.flatMap Wal.frameBytes).length) ∧
    Wal.recover (st.wal.take n) = .ok (frames, (frames.flatMap Wal.frameBytes).length) ∧
    ∃ replayed, (Replay.start 0).run frames = .ok replayed ∧
      replayed.memtable = (Engine.initial.afterCommits committed).memtable ∧
      replayed.nextCommitTs = (Engine.initial.afterCommits committed).commitSeq

/-- Replay reconstructs the committed prefix from every byte prefix of the
log. -/
theorem recoversPrefix (batches : List (List PendingWrite))
    (hrange : ∀ batch ∈ batches, ∀ w ∈ batch, w.InRange) (n : ℕ) (hn : n = 0 ∨ 4 ≤ n) :
    RecoversPrefix batches n := by
  have hcommits : ∀ w ∈ batches.flatten, w.InRange := by
    intro w hw
    obtain ⟨batch, hbatch, hmem⟩ := List.mem_flatten.mp hw
    exact hrange batch hbatch w hmem
  have hrecords := inRange_flatMap_frames hcommits
  refine ⟨_, LoggedEngine.commitBatches_eq_ok _ hrange, ?_⟩
  dsimp only
  rw [LoggedEngine.initial, List.nil_append, flatMap_bytes]
  refine ⟨Wal.decodeAll_take n hrecords, Wal.recover_take hn hrecords, ?_⟩
  obtain ⟨replayed, hrun, hmemtable, hnext, -⟩ := (Replay.start 0).run_complete_frames n
    fun w (_ : w ∈ batches.flatten) ↦ by simp [Replay.start]
  have hlive := (Replay.start 0).install_live .initial
    (complete bytes n batches.flatten) rfl rfl
  exact ⟨replayed, hrun, hmemtable.trans hlive.1, hnext.trans hlive.2⟩

def threeCommits : List (List PendingWrite) :=
  [[.ofCons 0 (.put [107] [1]) [.delete [107]]],
    [.ofCons 1 (.put [107] [2]) [], .ofCons 2 (.put [108] []) []]]

/-- A cut inside the second commit leaves the first. -/
theorem recoversPrefix_threeCommits :
    ((complete bytes 110 threeCommits.flatten).map fun w ↦ w.txId) = [1] ∧
      RecoversPrefix threeCommits 110 := by
  refine ⟨by decide, recoversPrefix threeCommits ?_ 110 (.inr (by decide))⟩
  have hall : ∀ batch ∈ threeCommits, ∀ w ∈ batch, w.txId < 2 ^ 64 ∧
      (∀ m ∈ w.mutations, m.key.length < Wal.valueNone) ∧
      ∀ m ∈ w.mutations, (m.value.getD []).length < Wal.valueNone := by decide
  intro batch hbatch w hw
  obtain ⟨htxId, hkey, hvalue⟩ := hall batch hbatch w hw
  exact ⟨htxId, hkey, hvalue⟩

end HatP
