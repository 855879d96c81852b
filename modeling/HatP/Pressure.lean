import HatP.FailedFlush
import Mathlib.Data.Rat.Defs
import Mathlib.Algebra.Order.Ring.Unbundled.Rat

/-!
# Write pressure

The throttle looks at a gauge of the memtable's size and rejects writes when it
is too high.  Only a commit sets the gauge.  A flush resets the counter behind
it and leaves the gauge, so that an engine can reject every write although its
memtable is empty.
-/

namespace HatP

open Transition

/-- What the throttle needs of floating-point numbers: conversions may round, but
zero over a capacity is zero. -/
class MachineFloat (R : Type*) extends LinearOrder R, Zero R where
  ofBytes : ℕ → R
  quot : R → R → R
  zero_quot : ∀ capacity, 0 < capacity → quot (ofBytes 0) (ofBytes capacity) = 0

instance : MachineFloat ℚ where
  ofBytes := fun n ↦ (n : ℚ)
  quot := fun a b ↦ a / b
  zero_quot := fun _ _ ↦ by simp

inductive ThrottleLevel
  | none
  | soft
  | hard
deriving DecidableEq

structure PressureConfig (R : Type*) where
  softMemtableRatio : R
  hardMemtableRatio : R
  memtableFlushBytes : ℕ

def PressureConfig.default : PressureConfig ℚ := ⟨7 / 10, 19 / 20, 64 * 1024 * 1024⟩

section Throttle

variable {R : Type*} [MachineFloat R]

def PressureConfig.shouldThrottle (config : PressureConfig R) (memtableBytes : ℕ) : ThrottleLevel :=
  let capacity : R := MachineFloat.ofBytes (max config.memtableFlushBytes 1)
  let ratio := MachineFloat.quot (MachineFloat.ofBytes memtableBytes) capacity
  if config.hardMemtableRatio ≤ ratio then .hard
  else if config.softMemtableRatio ≤ ratio then .soft
  else .none

theorem PressureConfig.shouldThrottle_zero {config : PressureConfig R}
    (hsoft : 0 < config.softMemtableRatio)
    (hle : config.softMemtableRatio ≤ config.hardMemtableRatio) :
    config.shouldThrottle 0 = .none := by
  have hzero : MachineFloat.quot (MachineFloat.ofBytes 0)
      (MachineFloat.ofBytes (max config.memtableFlushBytes 1)) = (0 : R) :=
    MachineFloat.zero_quot _ (lt_max_of_lt_right Nat.one_pos)
  rw [shouldThrottle, hzero, if_neg (hsoft.trans_le hle).not_ge, if_neg hsoft.not_ge]

end Throttle

/-! ## The counter of the memtable -/

def Mutation.footprint : Mutation → ℕ
  | .put key value => saturatingAdd (saturatingAdd key.length value.length) 24
  | .delete key => saturatingAdd key.length 24

/-- The engine with the counter of its memtable and the gauge of its metrics. -/
structure MeteredEngine where
  logged : LoggedEngine
  approximateBytes : ℕ
  memtableBytes : ℕ

/-- A commit that the hook vetoes or whose append fails, with the bytes that it
leaves in the log. -/
structure WriteFault where
  error : EngineError
  left : Bytes
deriving DecidableEq

theorem Wal.encodeRecords_ne_throttled (records : List WalRecord) :
    Wal.encodeRecords records ≠ .error .throttled := by
  induction records with
  | nil => rintro ⟨⟩
  | cons record records ih =>
    rw [encodeRecords, encodeFrame]
    split_ifs
    · rintro ⟨⟩
    · rintro ⟨⟩
    · cases hrest : encodeRecords records with
      | error err =>
        intro h
        apply ih
        rw [hrest]
        exact h
      | ok rest => rintro ⟨⟩

namespace MeteredEngine

def commitSingle (m : MeteredEngine) (txId : ℕ) (mutations : List Mutation)
    (fault : Option WriteFault) : Except EngineError ℕ × MeteredEngine :=
  match fault with
  | some fault =>
    (.error fault.error, { m with logged.wal := m.logged.wal ++ fault.left })
  | none =>
    match m.logged.writeWithTx txId mutations with
    | .error err => (.error err, m)
    | .ok (commitTs, logged) =>
      let approximateBytes := mutations.foldl
        (fun bytes mutation ↦ saturatingAdd bytes mutation.footprint) m.approximateBytes
      (.ok commitTs, ⟨logged, approximateBytes, approximateBytes⟩)

section

variable {R : Type*} [MachineFloat R] (config : PressureConfig R)

def writeWithTx (m : MeteredEngine) (txId : ℕ) (mutations : List Mutation)
    (fault : Option WriteFault) : Except EngineError ℕ × MeteredEngine :=
  if mutations = [] then (.error .emptyBatch, m)
  else if txId = 0 then (.error (.corrupt "tx_id 0 is reserved as sentinel"), m)
  else
    match config.shouldThrottle m.memtableBytes with
    | .none | .soft => m.commitSingle txId mutations fault
    | .hard => (.error .throttled, m)

end

/-- A flush that finds rows clears the memtable whether or not it succeeds. -/
def flush (m : MeteredEngine) (env : FlushEnv) :
    Except EngineError (Option FileMeta) × MeteredEngine :=
  let result := m.logged.tryFlush env
  (result.1,
    { m with
      logged := result.2
      approximateBytes :=
        if m.logged.engine.memtable.drainInto = [] then m.approximateBytes else 0 })

def dropTablePrefix (m : MeteredEngine) (table : Bytes) (fault : Option EngineError) :
    Except EngineError ℕ × MeteredEngine :=
  match fault, m.logged.engine.dropTablePrefix table with
  | some err, _ => (.error err, m)
  | none, .error err => (.error err, m)
  | none, .ok (removedCount, engine) => (.ok removedCount, { m with logged.engine := engine })

end MeteredEngine

inductive MeteredOp
  | write (txId : ℕ) (mutations : List Mutation) (fault : Option WriteFault)
  | flush (env : FlushEnv)
  | dropTable (table : Bytes) (fault : Option EngineError)

namespace MeteredEngine

variable {R : Type*} [MachineFloat R] (config : PressureConfig R)

def exec (m : MeteredEngine) : MeteredOp → MeteredEngine
  | .write txId mutations fault => (m.writeWithTx config txId mutations fault).2
  | .flush env => (m.flush env).2
  | .dropTable table fault => (m.dropTablePrefix table fault).2

def step (m : MeteredEngine) (op : MeteredOp) : Option MeteredEngine :=
  some (m.exec config op)

def Coherent (m : MeteredEngine) : Prop := m.memtableBytes = m.approximateBytes

instance (m : MeteredEngine) : Decidable m.Coherent :=
  inferInstanceAs (Decidable (_ = _))

/-- The call leaves gauge and counter in agreement, and no write that follows a
successful flush is throttled. -/
def Clears (m : MeteredEngine) (op : MeteredOp) : Prop :=
  (m.exec config op).Coherent ∧
    ∀ env, op = .flush env → (m.flush env).1.isOk = true → ∀ txId mutations,
      ((m.flush env).2.writeWithTx config txId mutations none).1 ≠ .error .throttled

/-! ## When the gauge is the counter -/

def Commits (m : MeteredEngine) (txId : ℕ) (mutations : List Mutation)
    (fault : Option WriteFault) : Prop :=
  mutations ≠ [] ∧ txId ≠ 0 ∧ config.shouldThrottle m.memtableBytes ≠ .hard ∧ fault = none ∧
    (Wal.encodeMutations txId mutations).isOk = true

instance (m : MeteredEngine) (txId : ℕ) (mutations : List Mutation) (fault : Option WriteFault) :
    Decidable (m.Commits config txId mutations fault) :=
  inferInstanceAs (Decidable (_ ∧ _ ∧ _ ∧ _ ∧ _))

/-- Only a commit brings gauge and counter together.  A flush of some rows needs a
gauge that no commit has set; a flush of none needs one below the limit. -/
def Settles (m : MeteredEngine) : MeteredOp → Prop
  | .write txId mutations fault => m.Coherent ∨ m.Commits config txId mutations fault
  | .flush _ =>
    if m.logged.engine.memtable.drainInto = [] then
      m.Coherent ∧ config.shouldThrottle m.memtableBytes ≠ .hard
    else m.memtableBytes = 0
  | .dropTable _ _ => m.Coherent

instance (m : MeteredEngine) : ∀ op, Decidable (m.Settles config op)
  | .write _ _ _ => inferInstanceAs (Decidable (_ ∨ _))
  | .flush _ => inferInstanceAs (Decidable (if m.logged.engine.memtable.drainInto = [] then
      m.Coherent ∧ config.shouldThrottle m.memtableBytes ≠ .hard else m.memtableBytes = 0))
  | .dropTable _ _ => inferInstanceAs (Decidable m.Coherent)

variable {config} {m : MeteredEngine} {txId : ℕ} {mutations : List Mutation}
  {fault : Option WriteFault}

/-- A write that commits sets the gauge, and one that does not leaves both
numbers. -/
inductive Writes (config : PressureConfig R) (m : MeteredEngine) (txId : ℕ)
    (mutations : List Mutation) (fault : Option WriteFault) :
    Except EngineError ℕ × MeteredEngine → Prop
  | committed (commitTs : ℕ) (logged : LoggedEngine) (bytes : ℕ)
      (hcommits : m.Commits config txId mutations fault) :
      Writes config m txId mutations fault (.ok commitTs, ⟨logged, bytes, bytes⟩)
  | refused (err : EngineError) (logged : LoggedEngine)
      (hrefused : ¬m.Commits config txId mutations fault)
      (herr : fault = none → err = .throttled → config.shouldThrottle m.memtableBytes = .hard) :
      Writes config m txId mutations fault (.error err, { m with logged := logged })

theorem writes_commitSingle (hnonempty : mutations ≠ []) (htx : txId ≠ 0)
    (hlevel : config.shouldThrottle m.memtableBytes ≠ .hard) :
    Writes config m txId mutations fault (m.commitSingle txId mutations fault) := by
  have haccept : m.logged.engine.writeWithTx txId mutations = .ok (m.logged.engine.commitSeq,
      m.logged.engine.committed txId mutations) := by
    rw [Engine.writeWithTx, if_neg hnonempty, if_neg htx]
    rfl
  cases fault with
  | some fault =>
    refine .refused fault.error _ (fun hcommits ↦ ?_) fun hnone ↦ ?_
    · cases hcommits.2.2.2.1
    · cases hnone
  | none =>
    rw [commitSingle]
    cases hencode : Wal.encodeMutations txId mutations with
    | error err =>
      have hwrite : m.logged.writeWithTx txId mutations = .error err := by
        simp [LoggedEngine.writeWithTx, haccept, hencode, bind, Except.bind]
      rw [hwrite]
      refine .refused err m.logged (fun hcommits ↦ ?_) fun _ herr ↦ ?_
      · have hok := hcommits.2.2.2.2
        rw [hencode] at hok
        cases hok
      · rw [herr] at hencode
        exact absurd hencode (Wal.encodeRecords_ne_throttled _)
    | ok bytes =>
      have hwrite : m.logged.writeWithTx txId mutations = .ok (m.logged.engine.commitSeq,
          ⟨m.logged.engine.committed txId mutations, m.logged.wal ++ bytes⟩) := by
        simp [LoggedEngine.writeWithTx, haccept, hencode, bind, Except.bind, pure, Except.pure]
      rw [hwrite]
      refine .committed _ _ _ ⟨hnonempty, htx, hlevel, rfl, ?_⟩
      rw [hencode]
      rfl

theorem writes_writeWithTx (config : PressureConfig R) (m : MeteredEngine) (txId : ℕ)
    (mutations : List Mutation) (fault : Option WriteFault) :
    Writes config m txId mutations fault (m.writeWithTx config txId mutations fault) := by
  rw [writeWithTx]
  split
  next hnil =>
    exact .refused _ m.logged (fun hcommits ↦ hcommits.1 hnil) fun _ herr ↦ nomatch herr
  next hnonempty =>
    split
    next hzero =>
      exact .refused _ m.logged (fun hcommits ↦ hcommits.2.1 hzero) fun _ herr ↦ nomatch herr
    next htx =>
      split
      next hlevel => exact writes_commitSingle hnonempty htx (by simp [hlevel])
      next hlevel => exact writes_commitSingle hnonempty htx (by simp [hlevel])
      next hlevel =>
        exact .refused _ m.logged (fun hcommits ↦ hcommits.2.2.1 hlevel) fun _ _ ↦ hlevel

section Writes

variable {result : Except EngineError ℕ × MeteredEngine}
  (h : Writes config m txId mutations fault result)

include h

theorem Writes.coherent_iff :
    result.2.Coherent ↔ m.Coherent ∨ m.Commits config txId mutations fault := by
  cases h with
  | committed commitTs logged bytes hcommits => exact iff_of_true rfl (.inr hcommits)
  | refused err logged hrefused herr =>
    rw [or_iff_left hrefused]
    rfl

theorem Writes.hard_of_throttled (hnone : fault = none) (hresult : result.1 = .error .throttled) :
    config.shouldThrottle m.memtableBytes = .hard := by
  cases h with
  | committed commitTs logged bytes hcommits => cases hresult
  | refused err logged hrefused herr =>
    cases hresult
    exact herr hnone rfl

end Writes

/-- Exactly at the hard limit are writes throttled. -/
theorem never_throttled_iff (m : MeteredEngine) :
    (∀ txId mutations, (m.writeWithTx config txId mutations none).1 ≠ .error .throttled) ↔
      config.shouldThrottle m.memtableBytes ≠ .hard := by
  constructor
  · intro hnever hhard
    apply hnever 1 [.delete []]
    simp [writeWithTx, hhard]
  · intro hlevel txId mutations hresult
    exact hlevel ((writes_writeWithTx config m txId mutations none).hard_of_throttled rfl hresult)

theorem exists_dropTablePrefix (m : MeteredEngine) (table : Bytes) (failure : Option EngineError) :
    ∃ logged, (m.dropTablePrefix table failure).2 = { m with logged := logged } := by
  unfold dropTablePrefix
  split
  · exact ⟨m.logged, rfl⟩
  · exact ⟨m.logged, rfl⟩
  · exact ⟨_, rfl⟩

theorem clears_write : m.Clears config (.write txId mutations fault) ↔
    m.Settles config (.write txId mutations fault) := by
  have hcoherent := (writes_writeWithTx config m txId mutations fault).coherent_iff
  exact and_iff_left_iff_imp.mpr (fun _ env hop ↦ nomatch hop) |>.trans hcoherent

theorem clears_dropTable {table : Bytes} {failure : Option EngineError} :
    m.Clears config (.dropTable table failure) ↔ m.Settles config (.dropTable table failure) := by
  have hcoherent : (m.exec config (.dropTable table failure)).Coherent ↔ m.Coherent := by
    obtain ⟨logged, hdrop⟩ := m.exists_dropTablePrefix table failure
    rw [exec, hdrop]
    rfl
  exact and_iff_left_iff_imp.mpr (fun _ env hop ↦ nomatch hop) |>.trans hcoherent

theorem clears_flush {env : FlushEnv} (hzero : config.shouldThrottle 0 = .none) :
    m.Clears config (.flush env) ↔ m.Settles config (.flush env) := by
  have hafter : m.Clears config (.flush env) ↔ (m.flush env).2.Coherent ∧
      ((m.flush env).1.isOk = true → config.shouldThrottle m.memtableBytes ≠ .hard) := by
    refine and_congr Iff.rfl ⟨fun hflush hok ↦ ?_, fun hflush env' hop hok ↦ ?_⟩
    · exact (never_throttled_iff (m.flush env).2).mp (hflush env rfl hok)
    · cases hop
      exact (never_throttled_iff (m.flush env).2).mpr (hflush hok)
  rw [hafter, Settles]
  split
  next hnil =>
    have hok : (m.flush env).1.isOk = true := by
      simp [flush, LoggedEngine.tryFlush, hnil, Except.isOk, Except.toBool]
    have hsame : (m.flush env).2.Coherent ↔ m.Coherent := by
      rw [Coherent, Coherent, flush, if_pos hnil]
    rw [hsame, forall_prop_of_true hok]
  next hne =>
    have hgauge : (m.flush env).2.Coherent ↔ m.memtableBytes = 0 := by
      rw [Coherent, flush, if_neg hne]
    rw [hgauge, and_iff_left_iff_imp]
    intro hempty _
    rw [hempty, hzero]
    decide

/-- The calls after which gauge and counter agree and a flush has cleared the
pressure are exactly those that settle. -/
theorem clears_iff_settles (hsoft : 0 < config.softMemtableRatio)
    (hle : config.softMemtableRatio ≤ config.hardMemtableRatio) (op : MeteredOp) :
    m.Clears config op ↔ m.Settles config op := by
  cases op with
  | write txId mutations fault => exact clears_write
  | flush env => exact clears_flush (PressureConfig.shouldThrottle_zero hsoft hle)
  | dropTable table failure => exact clears_dropTable

theorem pressure_clears_iff (hsoft : 0 < config.softMemtableRatio)
    (hle : config.softMemtableRatio ≤ config.hardMemtableRatio) (m : MeteredEngine)
    (ops : List MeteredOp) :
    StepsMeet (step config) (Clears config) m ops ↔
      StepsMeet (step config) (Settles config) m ops :=
  stepsMeet_congr fun _ op ↦ clears_iff_settles hsoft hle op

def noFaults : FlushEnv where
  sst := Engine.plainEnv
  walMaxSizeBytes := 1000
  editCount := 0
  fault := fun _ ↦ none
  emptied := false

def reopened : MeteredEngine := ⟨LoggedEngine.oneRow, 26, 0⟩

theorem pressure_clears_iff_reopened :
    StepsMeet (step PressureConfig.default) (Clears PressureConfig.default) reopened
      [.flush noFaults, .write 2 [.put [107] [2]] none, .dropTable [116] none] := by
  apply (pressure_clears_iff _ _ _ _).mpr
  · decide +kernel
  · decide +kernel
  · decide +kernel

/-! ## Pressure that stays -/

theorem memtableBytes_exec_of_hard (hhard : config.shouldThrottle m.memtableBytes = .hard)
    (op : MeteredOp) : (m.exec config op).memtableBytes = m.memtableBytes := by
  cases op with
  | write txId mutations fault =>
    rw [exec]
    generalize m.writeWithTx config txId mutations fault = result,
      writes_writeWithTx config m txId mutations fault = hwrites
    cases hwrites with
    | committed commitTs logged bytes hcommits => exact absurd hhard hcommits.2.2.1
    | refused err logged hrefused herr => rfl
  | flush env => rfl
  | dropTable table failure =>
    obtain ⟨logged, hdrop⟩ := m.exists_dropTablePrefix table failure
    rw [exec, hdrop]

/-- Once writes are rejected, no sequence of calls lets one through again. -/
theorem hard_forever (hhard : config.shouldThrottle m.memtableBytes = .hard)
    {ops : List MeteredOp} {after : MeteredEngine} (hrun : run (step config) m ops = some after) :
    config.shouldThrottle after.memtableBytes = .hard := by
  refine (stepsMeet_true m ops).run_invariant
    (I := fun m ↦ config.shouldThrottle m.memtableBytes = .hard) (fun m op t hm _ hstep ↦ ?_)
    hhard hrun
  cases hstep
  rw [memtableBytes_exec_of_hard hm]
  exact hm

def oneRowConfig : PressureConfig ℚ := ⟨1 / 2, 1, 26⟩

/-- After a successful flush of the whole memtable of a new engine the gauge still
has the old size, and no write is ever accepted again. -/
theorem throttled_after_flush :
    ∃ full flushed, run (step oneRowConfig) ⟨.initial, 0, 0⟩
        [.write 1 [.put [107] [1]] none] = some full ∧
      (full.flush noFaults).1.isOk = true ∧ (full.flush noFaults).2 = flushed ∧
      flushed.logged.engine.memtable.drainInto = [] ∧
      flushed.approximateBytes = 0 ∧ flushed.memtableBytes = 26 ∧
      ∀ ops after, run (step oneRowConfig) flushed ops = some after →
        (after.writeWithTx oneRowConfig 2 [.put [107] [2]] none).1 = .error .throttled := by
  refine ⟨_, _, rfl, by decide +kernel, rfl, by decide +kernel, by decide +kernel,
    by decide +kernel, fun ops after hrun ↦ ?_⟩
  have hhard := hard_forever (by decide +kernel) hrun
  simp [writeWithTx, hhard]

end MeteredEngine

end HatP
