import HatP.Concurrent.WriteBatch
import HatP.Lib.Run

/-!
# The group commit protocol

A writer that finds the queue empty takes the write guard and commits alone.
Otherwise it queues its request and waits for the guard; whoever gets it first
drains the queue and commits all the requests in one batch.  What runs under the
guard touches nothing that another call touches except the queue, so it is one
step.
-/

namespace HatP

open Function Transition

/-! ## The protocol -/

/-- Where a call of `write_with_tx_sync` stands. -/
inductive CallPhase
  | start
  /-- It has seen an empty queue and waits for the guard. -/
  | fastWait
  | fastCheck
  | single
  | enqueue
  /-- Its request is queued and it waits for the guard. -/
  | guardWait
  | tryRecv
  | drain
  | flush (batch : List ℕ)
  /-- The batch is done; the error is the one of the append. -/
  | recv (failure : Option EngineError)
  | returned (result : Except EngineError ℕ)

structure WriteQueue where
  phase : ℕ → CallPhase
  pendingWrites : List ℕ
  writeGuard : Option ℕ
  channels : Channels
  ledger : Ledger

/-- The next step of a call, with what the hook and the log answer if they are
asked in it. -/
structure Turn where
  call : ℕ
  verdict : ℕ → Except EngineError Unit
  outcome : AppendOutcome

namespace WriteQueue

def initial (queued : ℕ → Bool) (commitSeq : ℕ) (memtable : MemTable) : WriteQueue where
  phase call := if queued call then .enqueue else .start
  pendingWrites := []
  writeGuard := none
  channels _ := []
  ledger := ⟨[], commitSeq, memtable, [], [], [], []⟩

def move (s : WriteQueue) (call : ℕ) (phase : CallPhase) : WriteQueue :=
  { s with phase := update s.phase call phase }

def lock (s : WriteQueue) (call : ℕ) (phase : CallPhase) : Option WriteQueue :=
  if s.writeGuard = none then some { s.move call phase with writeGuard := some call } else none

def unlock (s : WriteQueue) (call : ℕ) (phase : CallPhase) : WriteQueue :=
  { s.move call phase with writeGuard := none }

def receive (s : WriteQueue) (call : ℕ) (answer : Except EngineError ℕ → Except EngineError ℕ) :
    Option WriteQueue :=
  match s.channels call with
  | [] => none
  | result :: rest =>
    some { s.unlock call (.returned (answer result)) with
      channels := update s.channels call rest }

variable (calls : ℕ → WriteCall) (count : ℕ)

def step (s : WriteQueue) (turn : Turn) : Option WriteQueue :=
  if count ≤ turn.call then none
  else
    match s.phase turn.call with
    | .start => some (s.move turn.call (if s.pendingWrites = [] then .fastWait else .enqueue))
    | .fastWait => s.lock turn.call .fastCheck
    | .fastCheck =>
      some (if s.pendingWrites = [] then s.move turn.call .single else s.unlock turn.call .enqueue)
    | .single =>
      let (ledger, result) := s.ledger.commitSingle calls turn.call (turn.verdict turn.call)
        turn.outcome
      some { s.unlock turn.call (.returned result) with ledger := ledger }
    | .enqueue =>
      some { s.move turn.call .guardWait with
        pendingWrites := s.pendingWrites ++ [turn.call] }
    | .guardWait => s.lock turn.call .tryRecv
    | .tryRecv => (s.receive turn.call id).or (some (s.move turn.call .drain))
    | .drain =>
      some { s.move turn.call
          (if s.pendingWrites = [] then .recv none else .flush s.pendingWrites) with
        pendingWrites := [] }
    | .flush batch =>
      let ((ledger, channels), result) := flushPendingBatch calls s.ledger s.channels batch
        turn.verdict turn.outcome
      let failure := match result with
        | .ok () => none
        | .error err => some err
      some { s.move turn.call (.recv failure) with ledger := ledger, channels := channels }
    | .recv failure =>
      s.receive turn.call fun result ↦
        match failure with
        | none => result
        | some err => .error err
    | .returned _ => none

end WriteQueue

/-! ## What one step does -/

section Steps

variable {calls : ℕ → WriteCall} {count : ℕ} {s t : WriteQueue} {turn : Turn}

/-- The effect of a received answer: a failed append goes before it. -/
def CallPhase.answer (failure : Option EngineError) (result : Except EngineError ℕ) :
    Except EngineError ℕ :=
  match failure with
  | none => result
  | some err => .error err

/-- The steps of a call, by the phase that it is in. -/
inductive Moves (calls : ℕ → WriteCall) (s : WriteQueue) (turn : Turn) : WriteQueue → Prop
  | look {phase : CallPhase} (h : s.phase turn.call = .start)
      (hnext : phase = .fastWait ∨ phase = .enqueue ∧ s.pendingWrites ≠ []) :
      Moves calls s turn (s.move turn.call phase)
  | lockFast (h : s.phase turn.call = .fastWait) (hfree : s.writeGuard = none) :
      Moves calls s turn { s.move turn.call .fastCheck with writeGuard := some turn.call }
  | alone (h : s.phase turn.call = .fastCheck) : Moves calls s turn (s.move turn.call .single)
  | giveUp (h : s.phase turn.call = .fastCheck) (hne : s.pendingWrites ≠ []) :
      Moves calls s turn (s.unlock turn.call .enqueue)
  | single (h : s.phase turn.call = .single) :
      Moves calls s turn
        { s.unlock turn.call (.returned (s.ledger.commitSingle calls turn.call
            (turn.verdict turn.call) turn.outcome).2) with
          ledger := (s.ledger.commitSingle calls turn.call (turn.verdict turn.call)
            turn.outcome).1 }
  | enqueue (h : s.phase turn.call = .enqueue) :
      Moves calls s turn { s.move turn.call .guardWait with
        pendingWrites := s.pendingWrites ++ [turn.call] }
  | lockQueued (h : s.phase turn.call = .guardWait) (hfree : s.writeGuard = none) :
      Moves calls s turn { s.move turn.call .tryRecv with writeGuard := some turn.call }
  | receive {failure : Option EngineError} {result : Except EngineError ℕ}
      {rest : List (Except EngineError ℕ)}
      (h : s.phase turn.call = .recv failure ∨ s.phase turn.call = .tryRecv ∧ failure = none)
      (hchannel : s.channels turn.call = result :: rest) :
      Moves calls s turn
        { s.unlock turn.call (.returned (CallPhase.answer failure result)) with
          channels := update s.channels turn.call rest }
  | notYet (h : s.phase turn.call = .tryRecv) (hchannel : s.channels turn.call = []) :
      Moves calls s turn (s.move turn.call .drain)
  | drainNone (h : s.phase turn.call = .drain) (hnil : s.pendingWrites = []) :
      Moves calls s turn { s.move turn.call (.recv none) with pendingWrites := [] }
  | drain (h : s.phase turn.call = .drain) :
      Moves calls s turn { s.move turn.call (.flush s.pendingWrites) with pendingWrites := [] }
  | flush {batch : List ℕ} {failure : Option EngineError} (h : s.phase turn.call = .flush batch)
      (hfailure : ∀ err, failure = some err →
        (flushPendingBatch calls s.ledger s.channels batch turn.verdict turn.outcome).2 =
          .error err) :
      Moves calls s turn
        { s.move turn.call (.recv failure) with
          ledger := (flushPendingBatch calls s.ledger s.channels batch turn.verdict
            turn.outcome).1.1
          channels := (flushPendingBatch calls s.ledger s.channels batch turn.verdict
            turn.outcome).1.2 }

theorem eq_of_lock {call : ℕ} {phase : CallPhase} (h : s.lock call phase = some t) :
    s.writeGuard = none ∧ t = { s.move call phase with writeGuard := some call } := by
  rw [WriteQueue.lock] at h
  split at h
  next hfree => exact ⟨hfree, (Option.some.inj h).symm⟩
  next => cases h

theorem eq_of_receive {call : ℕ} {answer : Except EngineError ℕ → Except EngineError ℕ}
    (h : s.receive call answer = some t) :
    ∃ result rest, s.channels call = result :: rest ∧
      t = { s.unlock call (.returned (answer result)) with
        channels := update s.channels call rest } := by
  rw [WriteQueue.receive] at h
  split at h
  next => cases h
  next result rest hchannel => exact ⟨result, rest, hchannel, (Option.some.inj h).symm⟩

theorem moves_of_step (h : s.step calls count turn = some t) :
    turn.call < count ∧ Moves calls s turn t := by
  rw [WriteQueue.step] at h
  split at h
  next => cases h
  next hcount =>
  refine ⟨not_le.mp hcount, ?_⟩
  split at h
  next hphase =>
    cases h
    refine .look hphase ?_
    split
    next => exact .inl rfl
    next hne => exact .inr ⟨rfl, hne⟩
  next hphase =>
    obtain ⟨hfree, rfl⟩ := eq_of_lock h
    exact .lockFast hphase hfree
  next hphase =>
    cases h
    split
    next => exact .alone hphase
    next hne => exact .giveUp hphase hne
  next hphase =>
    cases h
    exact .single hphase
  next hphase =>
    cases h
    exact .enqueue hphase
  next hphase =>
    obtain ⟨hfree, rfl⟩ := eq_of_lock h
    exact .lockQueued hphase hfree
  next hphase =>
    cases hchannel : s.channels turn.call with
    | nil =>
      rw [WriteQueue.receive, hchannel] at h
      cases h
      exact .notYet hphase hchannel
    | cons result rest =>
      rw [WriteQueue.receive, hchannel] at h
      cases h
      exact .receive (.inr ⟨hphase, rfl⟩) hchannel
  next hphase =>
    cases h
    split
    next hnil => exact .drainNone hphase hnil
    next => exact .drain hphase
  next batch hphase =>
    cases h
    refine .flush hphase fun err herr ↦ ?_
    split at herr
    next => cases herr
    next hresult =>
      cases herr
      exact hresult
  next failure hphase =>
    obtain ⟨result, rest, hchannel, rfl⟩ := eq_of_receive h
    exact .receive (.inl hphase) hchannel
  next => cases h

end Steps

/-! ## The invariant -/

namespace CallPhase

def Holds : CallPhase → Prop
  | .fastCheck | .single | .tryRecv | .drain | .flush _ | .recv _ => True
  | .start | .fastWait | .enqueue | .guardWait | .returned _ => False

/-- The request of the call has been handed over: it is queued, in a batch or
settled. -/
def Entered : CallPhase → Prop
  | .guardWait | .tryRecv | .drain | .flush _ | .recv _ | .returned _ => True
  | .start | .fastWait | .fastCheck | .single | .enqueue => False

def batch : CallPhase → List ℕ
  | .flush batch => batch
  | _ => []

def Alone : CallPhase → Prop
  | .start | .fastWait | .fastCheck | .single | .returned _ => True
  | .enqueue | .guardWait | .tryRecv | .drain | .flush _ | .recv _ => False

def rank : CallPhase → ℕ
  | .start => 9
  | .fastWait => 8
  | .fastCheck => 7
  | .enqueue => 6
  | .guardWait => 5
  | .tryRecv => 4
  | .drain => 3
  | .flush _ => 2
  | .single | .recv _ => 1
  | .returned _ => 0

end CallPhase

namespace WriteQueue

variable {result : Except EngineError ℕ} {schedule : List Turn} {batch : List ℕ}

variable {calls : ℕ → WriteCall} {count base : ℕ} {table : MemTable} {s t : WriteQueue}
  {turn : Turn} {memtable : MemTable}

/-- The batch that the holder of the guard has drained and not yet committed. -/
def inFlight (s : WriteQueue) : List ℕ :=
  match s.writeGuard with
  | none => []
  | some call => (s.phase call).batch

def places (s : WriteQueue) : List ℕ := s.pendingWrites ++ (s.inFlight ++ s.ledger.settled)

/-- What the channel of a call and the ledger say in each phase. -/
def Fits (s : WriteQueue) (call : ℕ) : CallPhase → Prop
  | .start | .fastWait | .fastCheck | .single | .enqueue => s.channels call = []
  | .guardWait | .tryRecv =>
    call ∉ s.ledger.settled ∧ s.channels call = [] ∨
      ∃ result, s.channels call = [result] ∧ s.ledger.Answers call result
  | .drain => call ∈ s.pendingWrites ∧ s.channels call = []
  | .flush batch => call ∈ batch ∧ s.channels call = []
  | .recv failure => ∃ result, s.channels call = [result] ∧ s.ledger.Answers call result ∧
      (failure ≠ none → call ∈ s.ledger.rejected ++ s.ledger.failed)
  | .returned result => s.channels call = [] ∧ s.ledger.Answers call result

structure Inv (calls : ℕ → WriteCall) (count base : ℕ) (table : MemTable) (s : WriteQueue) :
    Prop where
  ledger : s.ledger.Valid calls base table
  bounded : ∀ call, count ≤ call → ¬(s.phase call).Holds
  guard : ∀ call, (s.phase call).Holds ↔ s.writeGuard = some call
  nodup : s.places.Nodup
  entered : ∀ call, call ∈ s.places ↔ (s.phase call).Entered
  fits : ∀ call, s.Fits call (s.phase call)

theorem inv_initial (queued : ℕ → Bool) (commitSeq : ℕ) (memtable : MemTable) :
    Inv calls count commitSeq memtable (initial queued commitSeq memtable) where
  ledger :=
    { frames := fun call hcall ↦ by cases hcall
      owner := fun entry hentry ↦ by cases hentry
      commits := rfl
      nodup := List.nodup_nil
      timestamps := rfl
      next := rfl
      memtable := rfl
      applied := rfl }
  bounded call _ := by cases hqueued : queued call <;> simp [initial, hqueued, CallPhase.Holds]
  guard call := by cases hqueued : queued call <;> simp [initial, hqueued, CallPhase.Holds]
  nodup := List.nodup_nil
  entered call := by
    cases hqueued : queued call <;>
      simp [initial, hqueued, places, inFlight, Ledger.settled, CallPhase.Entered]
  fits call := by cases hqueued : queued call <;> simp [initial, hqueued, Fits]

def Guarded (s : WriteQueue) : Prop := ∀ call, (s.phase call).Holds ↔ s.writeGuard = some call

section Guarded

variable {call : ℕ} {phase : CallPhase}

section

variable (h : s.Guarded)

include h

theorem Guarded.not_holds {other : ℕ} (hholds : (s.phase call).Holds)
    (hne : other ≠ call) : ¬(s.phase other).Holds := by
  intro hother
  have hsame := ((h other).mp hother).symm.trans ((h call).mp hholds)
  exact hne (Option.some.inj hsame)

theorem Guarded.move (hholds : phase.Holds ↔ (s.phase call).Holds) (other : ℕ) :
    (update s.phase call phase other).Holds ↔ s.writeGuard = some other := by
  rw [← h other]
  by_cases hne : other = call
  · rw [hne, update_self, hholds]
  · rw [update_of_ne hne]

theorem Guarded.lock (hfree : s.writeGuard = none) (hholds : phase.Holds)
    (other : ℕ) : (update s.phase call phase other).Holds ↔ some call = some other := by
  by_cases hne : other = call
  · simp [hne, hholds]
  · have hnot := h other
    rw [hfree] at hnot
    rw [update_of_ne hne, hnot]
    simp [Ne.symm hne]

theorem Guarded.unlock (hholds : (s.phase call).Holds) (hfree : ¬phase.Holds)
    (other : ℕ) : (update s.phase call phase other).Holds ↔ none = some other := by
  by_cases hne : other = call
  · simp [hne, hfree]
  · rw [update_of_ne hne]
    simp [h.not_holds hholds hne]

theorem Guarded.moves (hmoves : Moves calls s turn t) : t.Guarded := by
  cases hmoves with
  | look hphase hnext =>
    rcases hnext with rfl | ⟨rfl, -⟩
    · exact h.move (by rw [hphase]; rfl)
    · exact h.move (by rw [hphase]; rfl)
  | lockFast hphase hfree | lockQueued hphase hfree => exact h.lock hfree trivial
  | giveUp hphase hne | single hphase => exact h.unlock (by rw [hphase]; trivial) id
  | receive hphase hchannel =>
    rcases hphase with hphase | ⟨hphase, -⟩
    · exact h.unlock (by rw [hphase]; trivial) id
    · exact h.unlock (by rw [hphase]; trivial) id
  | alone hphase | enqueue hphase | notYet hphase | drainNone hphase | drain hphase
  | flush hphase => exact h.move (by rw [hphase]; rfl)

end

end Guarded

variable {phase : CallPhase} {call : ℕ}

theorem inFlight_of_holds (h : Inv calls count base table s)
    (hholds : (s.phase call).Holds) : s.inFlight = (s.phase call).batch := by
  rw [inFlight, (h.guard call).mp hholds]

theorem inFlight_of_free (hfree : s.writeGuard = none) : s.inFlight = [] := by
  rw [inFlight, hfree]

theorem Inv.of_call (h : Inv calls count base table s)
    (hcall : call < count) (hphase : t.phase = update s.phase call phase)
    (hledger : t.ledger.Valid calls base table)
    (hguard : ∀ other, (t.phase other).Holds ↔ t.writeGuard = some other) (hnodup : t.places.Nodup)
    (hplaces : ∀ other, other ≠ call → (other ∈ t.places ↔ other ∈ s.places))
    (hentered : call ∈ t.places ↔ phase.Entered) (hfits : t.Fits call phase)
    (hothers : ∀ other, other ≠ call → t.Fits other (s.phase other)) :
    Inv calls count base table t := by
  have hsame : t.phase call = phase := by rw [hphase, update_self]
  have hother : ∀ other, other ≠ call → t.phase other = s.phase other := fun other hne ↦ by
    rw [hphase, update_of_ne hne]
  refine ⟨hledger, fun other hle ↦ ?_, hguard, hnodup, fun other ↦ ?_, fun other ↦ ?_⟩
  · rw [hother other (by omega)]
    exact h.bounded other hle
  · by_cases hne : other = call
    · rw [hne, hsame, hentered]
    · rw [hother other hne, hplaces other hne, h.entered other]
  · by_cases hne : other = call
    · rw [hne, hsame]
      exact hfits
    · rw [hother other hne]
      exact hothers other hne

theorem Inv.moved (h : Inv calls count base table s)
    (hcall : call < count) (hphase : t.phase = update s.phase call phase)
    (hguard : ∀ other, (t.phase other).Holds ↔ t.writeGuard = some other)
    (hpending : t.pendingWrites = s.pendingWrites) (hflight : t.inFlight = s.inFlight)
    (hledger : t.ledger = s.ledger)
    (hchannels : ∀ other, other ≠ call → t.channels other = s.channels other)
    (hentered : phase.Entered ↔ (s.phase call).Entered) (hfits : t.Fits call phase) :
    Inv calls count base table t := by
  have hplaces : t.places = s.places := by rw [places, places, hpending, hflight, hledger]
  refine h.of_call hcall hphase (hledger ▸ h.ledger) hguard (hplaces ▸ h.nodup)
    (fun other _ ↦ by rw [hplaces]) (by rw [hplaces, hentered, h.entered call]) hfits
    fun other hne ↦ ?_
  have hold := h.fits other
  revert hold
  cases s.phase other <;> simp only [Fits, hchannels other hne, hledger, hpending] <;> exact id

theorem inFlight_move (s : WriteQueue)
    (hbatch : phase.batch = (s.phase call).batch) : (s.move call phase).inFlight = s.inFlight := by
  cases hguard : s.writeGuard with
  | none => simp [inFlight, move, hguard]
  | some holder =>
    by_cases hne : holder = call
    · simp [inFlight, move, hguard, hne, hbatch]
    · simp [inFlight, move, hguard, update_of_ne hne]

/-- A settled call has been told, or will be, what holds of it; the calls of a
batch that others wait for get their answers. -/
theorem Fits.extended (h : s.Fits call phase)
    (hvalid : s.ledger.Valid calls base table) (hfree : ¬phase.Holds)
    (hext : Ledger.Extends batch s.ledger t.ledger) (hnew : (batch ++ s.ledger.settled).Nodup)
    (hentered : call ∈ batch → phase.Entered)
    (hmine : call ∈ batch → ∃ result, t.channels call = s.channels call ++ [result] ∧
      t.ledger.Answers call result)
    (hother : call ∉ batch → t.channels call = s.channels call) : t.Fits call phase := by
  have hsettled : call ∈ s.ledger.settled → call ∉ batch := fun hmem hbatch ↦
    (List.nodup_append.mp hnew).2.2 _ hbatch _ hmem rfl
  have hout : ¬phase.Entered → t.channels call = s.channels call := fun hnot ↦
    hother fun hbatch ↦ hnot (hentered hbatch)
  cases phase with
  | start | fastWait | enqueue => exact (hout id).trans h
  | fastCheck | single | tryRecv | drain | flush batch | recv failure => exact absurd trivial hfree
  | guardWait =>
    by_cases hbatch : call ∈ batch
    · obtain ⟨result, hchannel, hanswer⟩ := hmine hbatch
      rcases h with ⟨-, hnil⟩ | ⟨result', -, hanswer'⟩
      · exact .inr ⟨result, by rw [hchannel, hnil, List.nil_append], hanswer⟩
      · exact absurd hbatch (hsettled (hvalid.mem_settled hanswer'))
    · rcases h with ⟨hnot, hnil⟩ | ⟨result, hchannel, hanswer⟩
      · refine .inl ⟨fun hmem ↦ ?_, (hother hbatch).trans hnil⟩
        rcases List.mem_append.mp (hext.settled.mem_iff.mp hmem) with hmem | hmem
        · exact hbatch hmem
        · exact hnot hmem
      · exact .inr ⟨result, (hother hbatch).trans hchannel, hanswer.mono hext⟩
  | returned result =>
    obtain ⟨hnil, hanswer⟩ := h
    exact ⟨(hother (hsettled (hvalid.mem_settled hanswer))).trans hnil, hanswer.mono hext⟩

section

variable (h : Inv calls count base table s)

include h

variable {phase : CallPhase} {call : ℕ} {failure : Option EngineError}

theorem Inv.enqueued (hcall : call < count) (hphase : s.phase call = .enqueue) :
    Inv calls count base table
      { s.move call .guardWait with pendingWrites := s.pendingWrites ++ [call] } := by
  have hold := h.fits call
  have hentered := h.entered call
  have hguard : (CallPhase.guardWait.Holds ↔ (s.phase call).Holds) → ∀ other,
      (update s.phase call .guardWait other).Holds ↔ s.writeGuard = some other :=
    Guarded.move h.guard
  have hflight : (s.move call .guardWait).inFlight = s.inFlight :=
    s.inFlight_move (by rw [hphase]; rfl)
  rw [hphase] at hold hentered hguard
  have hperm : (s.pendingWrites ++ [call] ++ ((s.move call .guardWait).inFlight ++
      s.ledger.settled)).Perm (call :: s.places) := by
    rw [hflight, List.append_assoc]
    exact List.perm_middle
  have hout : call ∉ s.places := hentered.mp
  refine h.of_call hcall rfl h.ledger (hguard Iff.rfl) (hperm.nodup_iff.mpr (h.nodup.cons hout))
    (fun other hne ↦ ?_) ⟨fun _ ↦ trivial, fun _ ↦ hperm.mem_iff.mpr (.head _)⟩
    (.inl ⟨fun hmem ↦ hout ?_, hold⟩) fun other hne ↦ ?_
  · exact hperm.mem_iff.trans (List.mem_cons.trans (or_iff_right hne))
  · exact List.mem_append_right _ (List.mem_append_right _ hmem)
  · have hother := h.fits other
    revert hother
    cases s.phase other with
    | drain => exact fun hother ↦ ⟨List.mem_append_left _ hother.1, hother.2⟩
    | _ => exact id

theorem Inv.drained (hcall : call < count) (hphase : s.phase call = .drain) :
    Inv calls count base table
      { s.move call (.flush s.pendingWrites) with pendingWrites := [] } := by
  have hholds : (s.phase call).Holds := by
    rw [hphase]
    trivial
  have hold := h.fits call
  have hentered := h.entered call
  have hguard : ((CallPhase.flush s.pendingWrites).Holds ↔ (s.phase call).Holds) → ∀ other,
      (update s.phase call (.flush s.pendingWrites) other).Holds ↔
        s.writeGuard = some other :=
    Guarded.move h.guard
  have hflight := inFlight_of_holds h hholds
  have hflight' : WriteQueue.inFlight
      { s.move call (.flush s.pendingWrites) with pendingWrites := [] } = s.pendingWrites := by
    simp [inFlight, move, (h.guard call).mp hholds, CallPhase.batch]
  rw [hphase] at hold hentered hguard hflight
  have hplaces : WriteQueue.places
      { s.move call (.flush s.pendingWrites) with pendingWrites := [] } = s.places := by
    rw [places, places, hflight, hflight']
    rfl
  refine h.of_call hcall rfl h.ledger (hguard Iff.rfl) (hplaces ▸ h.nodup)
    (fun other _ ↦ by rw [hplaces]) (by rw [hplaces]; exact hentered) hold fun other hne ↦ ?_
  have hother := h.fits other
  have hnot := Guarded.not_holds h.guard hholds hne
  revert hother hnot
  cases s.phase other with
  | drain => exact fun _ hnot ↦ absurd trivial hnot
  | _ => exact fun hother _ ↦ hother

theorem Inv.committed (hcall : call < count) (hholds : (s.phase call).Holds)
    (hphase : t.phase = update s.phase call phase)
    (hguard : ∀ other, (t.phase other).Holds ↔ t.writeGuard = some other)
    (hpending : t.pendingWrites = s.pendingWrites) (hflight : t.inFlight = [])
    (hvalid : t.ledger.Valid calls base table) (hext : Ledger.Extends batch s.ledger t.ledger)
    (hnew : (s.pendingWrites ++ (batch ++ s.ledger.settled)).Nodup)
    (hplaces : ∀ other, other ∈ s.pendingWrites ++ (batch ++ s.ledger.settled) ↔
      other = call ∨ other ∈ s.places) (hmine : ∀ other, other ≠ call → other ∈ batch →
      ∃ result, t.channels other = s.channels other ++ [result] ∧ t.ledger.Answers other result)
    (hother : ∀ other, other ∉ batch → t.channels other = s.channels other)
    (hentered : phase.Entered) (hfits : t.Fits call phase) : Inv calls count base table t := by
  have hperm : t.places.Perm (s.pendingWrites ++ (batch ++ s.ledger.settled)) := by
    rw [places, hpending, hflight, List.nil_append]
    exact hext.settled.append_left _
  have hmem : ∀ other, other ∈ t.places ↔ other = call ∨ other ∈ s.places := fun other ↦
    hperm.mem_iff.trans (hplaces other)
  refine h.of_call hcall hphase hvalid hguard (hperm.nodup_iff.mpr hnew)
    (fun other hne ↦ (hmem other).trans (or_iff_right hne))
    ⟨fun _ ↦ hentered, fun _ ↦ (hmem call).mpr (.inl rfl)⟩ hfits fun other hne ↦ ?_
  refine (h.fits other).extended h.ledger (Guarded.not_holds h.guard hholds hne) hext
    (List.nodup_append.mp hnew).2.1 (fun hbatch ↦ ?_) (hmine other hne) (hother other)
  have hin := (hplaces other).mp (List.mem_append_right _ (List.mem_append_left _ hbatch))
  exact (h.entered other).mp (hin.resolve_left hne)

theorem Inv.move (hcall : call < count) (hholds : phase.Holds ↔ (s.phase call).Holds)
    (hbatch : phase.batch = (s.phase call).batch)
    (hentered : phase.Entered ↔ (s.phase call).Entered) (hfits : s.Fits call phase) :
    Inv calls count base table (s.move call phase) := by
  refine h.moved hcall rfl (Guarded.move h.guard hholds) rfl (s.inFlight_move hbatch) rfl
    (fun _ _ ↦ rfl) hentered ?_
  cases phase <;> exact hfits

theorem Inv.locked (hcall : call < count) (hfree : s.writeGuard = none) (hholds : phase.Holds)
    (hbatch : phase.batch = []) (hentered : phase.Entered ↔ (s.phase call).Entered)
    (hfits : s.Fits call phase) :
    Inv calls count base table { s.move call phase with writeGuard := some call } := by
  refine h.moved hcall rfl (Guarded.lock h.guard hfree hholds) rfl ?_ rfl (fun _ _ ↦ rfl)
    hentered ?_
  · rw [inFlight_of_free hfree]
    simp [inFlight, WriteQueue.move, hbatch]
  · cases phase <;> exact hfits

theorem Inv.unlocked {channels : Channels} (hcall : call < count) (hholds : (s.phase call).Holds)
    (hbatch : (s.phase call).batch = []) (hfree : ¬phase.Holds)
    (hchannels : ∀ other, other ≠ call → channels other = s.channels other)
    (hentered : phase.Entered ↔ (s.phase call).Entered)
    (hfits : Fits { s.unlock call phase with channels := channels } call phase) :
    Inv calls count base table { s.unlock call phase with channels := channels } := by
  refine h.moved hcall rfl (Guarded.unlock h.guard hholds hfree) rfl ?_ rfl hchannels hentered hfits
  rw [inFlight_of_holds h hholds, hbatch]
  rfl

theorem Inv.commitSingle (hcall : call < count)
    (hphase : s.phase call = .single) (verdict : Except EngineError Unit)
    (outcome : AppendOutcome) :
    Inv calls count base table
      { s.unlock call (.returned (s.ledger.commitSingle calls call verdict outcome).2) with
        ledger := (s.ledger.commitSingle calls call verdict outcome).1 } := by
  have hholds : (s.phase call).Holds := by
    rw [hphase]
    trivial
  have hold := h.fits call
  have hentered := h.entered call
  have hflight := inFlight_of_holds h hholds
  rw [hphase] at hold hentered hflight
  have hplaces : s.places = s.pendingWrites ++ s.ledger.settled := by
    rw [places, hflight]
    rfl
  have hout : call ∉ s.places := hentered.mp
  have hnew : call ∉ s.ledger.settled := fun hmem ↦
    hout (hplaces ▸ List.mem_append_right _ hmem)
  obtain ⟨hvalid, hext, hanswer, -⟩ := commitSingle_spec h.ledger hnew verdict outcome
  have hperm : (s.pendingWrites ++ ([call] ++ s.ledger.settled)).Perm (call :: s.places) := by
    rw [hplaces]
    exact List.perm_middle
  refine h.committed hcall hholds rfl (Guarded.unlock h.guard hholds id) rfl rfl hvalid hext
    (hperm.nodup_iff.mpr (h.nodup.cons hout)) (fun other ↦ hperm.mem_iff.trans List.mem_cons)
    (fun other hne hmem ↦ absurd (List.mem_singleton.mp hmem) hne) (fun _ _ ↦ rfl) trivial
    ⟨hold, hanswer⟩

theorem Inv.flushed (hcall : call < count) (hphase : s.phase call = .flush batch)
    {verdict : ℕ → Except EngineError Unit} {outcome : AppendOutcome}
    (hfailure : ∀ err, failure = some err →
      (flushPendingBatch calls s.ledger s.channels batch verdict outcome).2 = .error err) :
    Inv calls count base table
      { s.move call (.recv failure) with
        ledger := (flushPendingBatch calls s.ledger s.channels batch verdict outcome).1.1
        channels := (flushPendingBatch calls s.ledger s.channels batch verdict outcome).1.2 } := by
  have hholds : (s.phase call).Holds := by
    rw [hphase]
    trivial
  obtain ⟨hmine, hnil⟩ : call ∈ batch ∧ s.channels call = [] := by
    have hold := h.fits call
    rw [hphase] at hold
    exact hold
  have hplaces : s.places = s.pendingWrites ++ (batch ++ s.ledger.settled) := by
    rw [places, inFlight_of_holds h hholds, hphase]
    rfl
  have hnodup := h.nodup
  rw [hplaces] at hnodup
  have hspec := flushed_flushPendingBatch h.ledger (List.nodup_append.mp hnodup).2.1 s.channels
    verdict outcome
  obtain ⟨result, hchannel, hanswer⟩ := hspec.answered.mine call hmine
  rw [hnil, List.nil_append] at hchannel
  have hguard : ∀ other, (update s.phase call (.recv failure) other).Holds ↔
      s.writeGuard = some other :=
    Guarded.move h.guard ⟨fun _ ↦ hholds, fun _ ↦ trivial⟩
  refine h.committed hcall hholds rfl hguard rfl ?_ hspec.valid hspec.extended hnodup
    (fun other ↦ ?_) (fun other _ ↦ hspec.answered.mine other) hspec.answered.others trivial
    ⟨result, hchannel, hanswer, fun hne ↦ ?_⟩
  · simp [inFlight, WriteQueue.move, (h.guard call).mp hholds, CallPhase.batch]
  · rw [← hplaces]
    refine ⟨.inr, ?_⟩
    rintro (rfl | hmem)
    · rw [hplaces]
      exact List.mem_append_right _ (List.mem_append_left _ hmine)
    · exact hmem
  · obtain ⟨err, herr⟩ := Option.ne_none_iff_exists'.mp hne
    exact hspec.failure err (hfailure err herr) call hmine

theorem Inv.received {rest : List (Except EngineError ℕ)} (hcall : call < count)
    (hphase : s.phase call = .recv failure ∨ s.phase call = .tryRecv ∧ failure = none)
    (hchannel : s.channels call = result :: rest) :
    Inv calls count base table
      { s.unlock call (.returned (CallPhase.answer failure result)) with
        channels := update s.channels call rest } := by
  have hold := h.fits call
  have hanswer : rest = [] ∧ s.ledger.Answers call (CallPhase.answer failure result) := by
    rcases hphase with hphase | ⟨hphase, rfl⟩
    · rw [hphase] at hold
      obtain ⟨only, hone, hanswer, hfailure⟩ := hold
      obtain ⟨rfl, rfl⟩ := List.cons.inj (hchannel.symm.trans hone)
      refine ⟨rfl, ?_⟩
      cases failure with
      | none => exact hanswer
      | some err => exact hfailure (Option.some_ne_none err)
    · rw [hphase] at hold
      rcases hold with ⟨-, hnil⟩ | ⟨only, hone, hanswer⟩
      · cases hchannel.symm.trans hnil
      · obtain ⟨rfl, rfl⟩ := List.cons.inj (hchannel.symm.trans hone)
        exact ⟨rfl, hanswer⟩
  have hshape : (s.phase call).Holds ∧ (s.phase call).batch = [] ∧ (s.phase call).Entered := by
    rcases hphase with hphase | ⟨hphase, -⟩
    · rw [hphase]
      exact ⟨trivial, rfl, trivial⟩
    · rw [hphase]
      exact ⟨trivial, rfl, trivial⟩
  refine h.unlocked hcall hshape.1 hshape.2.1 id (fun other hne ↦ update_of_ne hne _ _)
    ⟨fun _ ↦ hshape.2.2, fun _ ↦ trivial⟩ ⟨?_, hanswer.2⟩
  exact (update_self ..).trans hanswer.1

theorem Inv.mem_pendingWrites (hphase : s.phase call = .tryRecv) (hchannel : s.channels call = []) :
    call ∈ s.pendingWrites := by
  have hold := h.fits call
  have hentered := h.entered call
  have hflight : (s.phase call).Holds → s.inFlight = (s.phase call).batch :=
    inFlight_of_holds h
  rw [hphase] at hold hentered hflight
  have hin := hentered.mpr trivial
  rw [places, hflight trivial] at hin
  refine (List.mem_append.mp hin).resolve_right fun hsettled ↦ ?_
  rcases hold with ⟨hnot, -⟩ | ⟨result, hone, -⟩
  · exact hnot hsettled
  · cases hchannel.symm.trans hone

theorem Inv.moves (hcall : turn.call < count)
    (hmoves : Moves calls s turn t) : Inv calls count base table t := by
  have hold := h.fits turn.call
  cases hmoves with
  | look hphase hnext =>
    rw [hphase] at hold
    rcases hnext with rfl | ⟨rfl, -⟩
    · exact h.move hcall (by rw [hphase]; rfl) (by rw [hphase]; rfl) (by rw [hphase]; rfl) hold
    · exact h.move hcall (by rw [hphase]; rfl) (by rw [hphase]; rfl) (by rw [hphase]; rfl) hold
  | lockFast hphase hfree | lockQueued hphase hfree =>
    rw [hphase] at hold
    exact h.locked hcall hfree trivial rfl (by rw [hphase]; rfl) hold
  | alone hphase =>
    rw [hphase] at hold
    exact h.move hcall (by rw [hphase]; rfl) (by rw [hphase]; rfl) (by rw [hphase]; rfl) hold
  | giveUp hphase hne =>
    rw [hphase] at hold
    exact h.unlocked hcall (by rw [hphase]; trivial) (by rw [hphase]; rfl) id (fun _ _ ↦ rfl)
      (by rw [hphase]; rfl) hold
  | single hphase => exact h.commitSingle hcall hphase _ _
  | enqueue hphase => exact h.enqueued hcall hphase
  | receive hphase hchannel => exact h.received hcall hphase hchannel
  | notYet hphase hchannel =>
    exact h.move hcall (by rw [hphase]; rfl) (by rw [hphase]; rfl) (by rw [hphase]; rfl)
      ⟨h.mem_pendingWrites hphase hchannel, hchannel⟩
  | drainNone hphase hnil =>
    rw [hphase] at hold
    exact absurd hold.1 (hnil ▸ List.not_mem_nil)
  | drain hphase => exact h.drained hcall hphase
  | flush hphase hfailure => exact h.flushed hcall hphase hfailure

end

/-! ## Every call returns -/

theorem phase_lt_of_moves (h : Moves calls s turn t) :
    ∃ phase, t.phase = update s.phase turn.call phase ∧
      phase.rank < (s.phase turn.call).rank := by
  cases h with
  | look hphase hnext =>
    refine ⟨_, rfl, ?_⟩
    rw [hphase]
    rcases hnext with rfl | ⟨rfl, -⟩ <;> simp [CallPhase.rank]
  | receive hphase hchannel =>
    refine ⟨_, rfl, ?_⟩
    rcases hphase with hphase | ⟨hphase, -⟩ <;> rw [hphase] <;> simp [CallPhase.rank]
  | lockFast hphase | alone hphase | giveUp hphase | single hphase | enqueue hphase
  | lockQueued hphase | notYet hphase | drainNone hphase | drain hphase | flush hphase =>
    refine ⟨_, rfl, ?_⟩
    rw [hphase]
    simp [CallPhase.rank]

def remaining (count : ℕ) (s : WriteQueue) : ℕ := ∑ call ∈ Finset.range count, (s.phase call).rank

theorem remaining_lt (h : s.step calls count turn = some t) :
    t.remaining count < s.remaining count := by
  obtain ⟨hcall, hmoves⟩ := moves_of_step h
  obtain ⟨phase, hphase, hlt⟩ := phase_lt_of_moves hmoves
  refine Finset.sum_lt_sum (fun other _ ↦ ?_) ⟨turn.call, Finset.mem_range.mpr hcall, ?_⟩
  · by_cases hne : other = turn.call
    · rw [hphase, hne, update_self]
      exact hlt.le
    · rw [hphase, update_of_ne hne]
  · rw [hphase, update_self]
    exact hlt

theorem remaining_initial_le (queued : ℕ → Bool) (commitSeq : ℕ) (memtable : MemTable) :
    (initial queued commitSeq memtable).remaining count ≤ 9 * count := by
  have hle : ∀ call ∈ Finset.range count,
      ((initial queued commitSeq memtable).phase call).rank ≤ 9 := by
    intro call _
    cases hqueued : queued call <;> simp [initial, hqueued, CallPhase.rank]
  have hsum := Finset.sum_le_card_nsmul _ _ 9 hle
  rw [Finset.card_range, smul_eq_mul] at hsum
  exact hsum.trans (Nat.mul_comm count 9).le

theorem Inv.returned_of_blocked (h : Inv calls count base table s)
    (hblocked : ∀ turn, s.step calls count turn = none) (hcall : call < count) :
    ∃ result, s.phase call = .returned result := by
  have hstuck : ∀ other, other < count →
      s.step calls count ⟨other, fun _ ↦ .ok (), .appended⟩ = none := fun other _ ↦ hblocked _
  have hfree : s.writeGuard = none := by
    by_contra hheld
    obtain ⟨holder, hholder⟩ := Option.ne_none_iff_exists'.mp hheld
    have hholds := (h.guard holder).mpr hholder
    have hlt : holder < count := by
      by_contra hge
      exact h.bounded holder (not_lt.mp hge) hholds
    have hnone := hstuck holder hlt
    have hfits := h.fits holder
    rw [step, if_neg (not_le.mpr hlt)] at hnone
    dsimp only at hnone
    cases hphase : s.phase holder with
    | recv failure =>
      rw [hphase] at hfits hnone
      obtain ⟨result, hchannel, -⟩ := hfits
      simp [receive, hchannel] at hnone
    | _ => simp_all [CallPhase.Holds]
  have hnone := hstuck call hcall
  rw [step, if_neg (not_le.mpr hcall)] at hnone
  dsimp only at hnone
  have hnot : ¬(s.phase call).Holds := fun hholds ↦ by
    have hheld := (h.guard call).mp hholds
    rw [hfree] at hheld
    cases hheld
  cases hphase : s.phase call with
  | returned result => exact ⟨result, rfl⟩
  | _ => simp_all [CallPhase.Holds, lock]

/-! ## The result -/

def Executes (s : WriteQueue) (turn : Turn) (call : ℕ) : Prop :=
  s.phase turn.call = .single ∧ call = turn.call ∨
    ∃ batch, s.phase turn.call = .flush batch ∧ call ∈ batch

section

variable (h : Inv calls count base table s) {call : ℕ}

include h

theorem Inv.flush_nodup
    (hphase : s.phase call = .flush batch) : (batch ++ s.ledger.settled).Nodup := by
  have hflight : (s.phase call).Holds → s.inFlight = (s.phase call).batch :=
    inFlight_of_holds h
  rw [hphase] at hflight
  have hnodup := h.nodup
  rw [places, hflight trivial] at hnodup
  exact (List.nodup_append.mp hnodup).2.1

theorem Inv.single_notMem (hphase : s.phase call = .single) : call ∉ s.ledger.settled := by
  have hentered := h.entered call
  rw [hphase] at hentered
  exact fun hmem ↦ hentered.mp (List.mem_append_right _ (List.mem_append_right _ hmem))

theorem Inv.extends_ledger (hmoves : Moves calls s turn t) :
    ∃ batch, Ledger.Extends batch s.ledger t.ledger := by
  cases hmoves with
  | single hphase =>
    exact ⟨_, (commitSingle_spec h.ledger (h.single_notMem hphase) _ _).2.1⟩
  | flush hphase hfailure =>
    exact ⟨_, (flushed_flushPendingBatch h.ledger (h.flush_nodup hphase) _ _ _).extended⟩
  | _ => exact ⟨[], .of_eq_nil rfl⟩

theorem Inv.decided (hmoves : Moves calls s turn t) (hexec : s.Executes turn call) :
    t.ledger.Decided call (turn.verdict call) turn.outcome := by
  cases hmoves with
  | single hphase =>
    rcases hexec with ⟨-, rfl⟩ | ⟨batch, hbatch, -⟩
    · exact (commitSingle_spec h.ledger (h.single_notMem hphase) _ _).2.2.2
    · cases hphase.symm.trans hbatch
  | flush hphase hfailure =>
    rcases hexec with ⟨hsingle, -⟩ | ⟨batch, hbatch, hmem⟩
    · cases hphase.symm.trans hsingle
    · cases hphase.symm.trans hbatch
      exact (flushed_flushPendingBatch h.ledger (h.flush_nodup hphase) _ _ _).decided call hmem
  | receive hphase hchannel =>
    rcases hphase with hphase | ⟨hphase, -⟩ <;> rcases hexec with ⟨hother, -⟩ | ⟨_, hother, -⟩ <;>
      cases hphase.symm.trans hother
  | look hphase | lockFast hphase | alone hphase | giveUp hphase | enqueue hphase
  | lockQueued hphase | notYet hphase | drainNone hphase | drain hphase =>
    rcases hexec with ⟨hother, -⟩ | ⟨_, hother, -⟩ <;> cases hphase.symm.trans hother

end

/-- What the callers, the log and the memtable agree on. -/
structure Correct (calls : ℕ → WriteCall) (table : MemTable) (s : WriteQueue) : Prop where
  /-- A committed request is in the log once and in the memtable once, under the
  timestamp that its caller is told. -/
  logged : ∀ call ∈ s.ledger.logged,
    s.ledger.wal.filter (fun entry ↦ entry.1 == call) = (calls call).frames.map (Prod.mk call) ∧
    ∃ commitTs, s.ledger.applied.filter (fun entry ↦ entry.1 == call) = [(call, commitTs)] ∧
      ∀ result, s.phase call = .returned result → result = .ok commitTs
  rejected : ∀ call ∈ s.ledger.rejected,
    (∀ entry ∈ s.ledger.wal, entry.1 ≠ call) ∧ (∀ entry ∈ s.ledger.applied, entry.1 ≠ call) ∧
      ∀ result, s.phase call = .returned result → ∃ err, result = .error err
  returned : ∀ call result, s.phase call = .returned result → s.ledger.Answers call result
  memtable : s.ledger.memtable = s.ledger.applied.foldl (fun table entry ↦
    table.applyMutationsBatch (calls entry.1).txId (calls entry.1).mutations entry.2) table
  /-- The commit frames are in the order of the timestamps. -/
  order : (s.ledger.wal.filter fun entry ↦
      decide (entry.2.op = .commit ∧ entry.1 ∈ s.ledger.logged)).map Prod.fst =
    s.ledger.applied.map Prod.fst
  increasing : (s.ledger.applied.map Prod.snd).Pairwise (· < ·)
  /-- No send into a channel has to wait. -/
  capacity : ∀ call, (s.channels call).length ≤ 1

section

variable (h : Inv calls count base table s) {call : ℕ}

include h

theorem Inv.answers (hphase : s.phase call = .returned result) :
    s.ledger.Answers call result := by
  have hfits := h.fits call
  rw [hphase] at hfits
  exact hfits.2

theorem Inv.logged_once (hcall : call ∈ s.ledger.logged) :
    ∃ commitTs, s.ledger.applied.filter (fun entry ↦ entry.1 == call) = [(call, commitTs)] ∧
      ∀ result, s.phase call = .returned result → result = .ok commitTs := by
  have hmem : call ∈ s.ledger.applied.map Prod.fst := h.ledger.applied ▸ hcall
  obtain ⟨⟨owner, commitTs⟩, hentry, heq⟩ := List.mem_map.mp hmem
  obtain rfl : owner = call := heq
  have honce := h.ledger.filter_applied hentry
  refine ⟨commitTs, honce, fun result hphase ↦ ?_⟩
  have hanswer := h.answers hphase
  cases result with
  | ok other =>
    have hsame : (owner, other) ∈ s.ledger.applied.filter (fun entry ↦ entry.1 == owner) :=
      List.mem_filter.mpr ⟨hanswer, beq_self_eq_true _⟩
    rw [honce, List.mem_singleton] at hsame
    exact congrArg Except.ok (congrArg Prod.snd hsame)
  | error err => exact absurd hanswer (h.ledger.notMem_of_mem_logged hcall)

theorem Inv.rejected_never (hcall : call ∈ s.ledger.rejected) :
    (∀ entry ∈ s.ledger.wal, entry.1 ≠ call) ∧ (∀ entry ∈ s.ledger.applied, entry.1 ≠ call) ∧
      ∀ result, s.phase call = .returned result → ∃ err, result = .error err := by
  obtain ⟨hfailed, hlogged⟩ := h.ledger.notMem_of_mem_rejected hcall
  have happlied : ∀ entry ∈ s.ledger.applied, entry.1 ≠ call := fun entry hentry heq ↦
    hlogged (heq ▸ h.ledger.applied ▸ List.mem_map_of_mem hentry)
  refine ⟨fun entry hentry heq ↦ ?_, happlied, fun result hphase ↦ ?_⟩
  · rcases h.ledger.owner entry hentry with hmem | hmem
    · exact hlogged (heq ▸ hmem)
    · exact hfailed (heq ▸ hmem)
  · have hanswer := h.answers hphase
    cases result with
    | ok commitTs => exact absurd rfl (happlied _ hanswer)
    | error err => exact ⟨err, rfl⟩

theorem Inv.length_channel_le (call : ℕ) : (s.channels call).length ≤ 1 := by
  have hfits := h.fits call
  revert hfits
  cases s.phase call with
  | guardWait | tryRecv =>
    rintro (⟨-, hnil⟩ | ⟨result, hone, -⟩)
    · simp [hnil]
    · simp [hone]
  | recv failure =>
    rintro ⟨result, hone, -⟩
    simp [hone]
  | drain | flush batch =>
    rintro ⟨-, hnil⟩
    simp [hnil]
  | returned result =>
    rintro ⟨hnil, -⟩
    simp [hnil]
  | _ =>
    intro hnil
    rw [show s.channels call = [] from hnil]
    exact Nat.zero_le 1

theorem Inv.correct : s.Correct calls table where
  logged call hcall := ⟨h.ledger.frames call hcall, h.logged_once hcall⟩
  rejected _ hcall := h.rejected_never hcall
  returned _ _ hphase := h.answers hphase
  memtable := h.ledger.memtable
  order := by
    rw [h.ledger.applied]
    exact h.ledger.commits
  increasing := by
    rw [h.ledger.timestamps]
    exact List.pairwise_lt_range'
  capacity := h.length_channel_le

end

theorem inv_of_run {queued : ℕ → Bool} {commitSeq : ℕ}
    (hrun : run (step calls count) (initial queued commitSeq memtable) schedule =
      some s) : Inv calls count commitSeq memtable s :=
  (stepsMeet_true _ schedule).run_invariant
    (fun _ _ _ hinv _ hstep ↦ hinv.moves (moves_of_step hstep).1 (moves_of_step hstep).2)
    (inv_initial queued commitSeq memtable) hrun

theorem Inv.decided_of_run (h : Inv calls count base table s)
    {verdict : Except EngineError Unit} {outcome : AppendOutcome}
    (hdecided : s.ledger.Decided call verdict outcome)
    (hrun : run (step calls count) s schedule = some t) :
    t.ledger.Decided call verdict outcome := by
  refine ((stepsMeet_true s schedule).run_invariant
    (I := fun s ↦ Inv calls count base table s ∧ s.ledger.Decided call verdict outcome)
    (fun s turn t hinv _ hstep ↦ ?_) ⟨h, hdecided⟩ hrun).2
  obtain ⟨hcall, hmoves⟩ := moves_of_step hstep
  obtain ⟨batch, hext⟩ := hinv.1.extends_ledger hmoves
  exact ⟨hinv.1.moves hcall hmoves, hinv.2.mono hext⟩

theorem returned_of_step (h : s.step calls count turn = some t)
    (hreturned : s.phase call = .returned result) :
    t.phase call = .returned result := by
  obtain ⟨-, hmoves⟩ := moves_of_step h
  obtain ⟨phase, hphase, hlt⟩ := phase_lt_of_moves hmoves
  have hne : call ≠ turn.call := fun heq ↦ by
    rw [← heq, hreturned] at hlt
    exact absurd hlt (Nat.not_lt_zero _)
  rw [hphase, update_of_ne hne, hreturned]

/-- Group commit is correct: whatever way the calls interleave, they all return
after boundedly many steps, once each, and the answers, the log and the memtable
agree. -/
theorem groupCommit_correct (calls : ℕ → WriteCall) (count : ℕ) (queued : ℕ → Bool)
    (commitSeq : ℕ) (memtable : MemTable) (schedule : List Turn) (s : WriteQueue)
    (hrun : run (step calls count) (initial queued commitSeq memtable) schedule =
      some s) :
    s.Correct calls memtable ∧
      (∀ before turn after u call, schedule = before ++ turn :: after →
        run (step calls count) (initial queued commitSeq memtable) before = some u →
        u.Executes turn call → s.ledger.Decided call (turn.verdict call) turn.outcome) ∧
      schedule.length ≤ 9 * count ∧
      ((∀ turn, s.step calls count turn = none) →
        ∀ call < count, ∃ result, s.phase call = .returned result) ∧
      ∀ turn t call result, s.step calls count turn = some t →
        s.phase call = .returned result → t.phase call = .returned result := by
  have hinv := inv_of_run hrun
  refine ⟨hinv.correct, ?_, ?_, fun hblocked _ hcall ↦ hinv.returned_of_blocked hblocked hcall,
    fun _ _ _ _ hstep ↦ returned_of_step hstep⟩
  · rintro before turn after u call rfl hbefore hexec
    obtain ⟨v, hv, hrest⟩ := run_append_eq_some.mp hrun
    cases hbefore.symm.trans hv
    obtain ⟨w, hstep, hafter⟩ := run_cons_eq_some.mp hrest
    obtain ⟨hcall, hmoves⟩ := moves_of_step hstep
    have hu := inv_of_run hbefore
    exact (hu.moves hcall hmoves).decided_of_run (hu.decided hmoves hexec) hafter
  · have hlength := length_add_le_of_run
      (fun _ _ _ hstep ↦ remaining_lt hstep) hrun
    have hinitial : (initial queued commitSeq memtable).remaining count ≤ 9 * count :=
      remaining_initial_le queued commitSeq memtable
    omega

/-- Two queued requests: the second caller commits for both, and the hook turns
down the first. -/
def pairSchedule : List Turn :=
  [0, 1, 1, 1, 1, 1, 1, 0, 0].map fun call ↦
    ⟨call, fun other ↦ if other = 0 then .error .throttled else .ok (), .appended⟩

theorem groupCommit_correct_pair :
    ∃ s, run (step (fun call ↦ ⟨call + 1, [.put [1] [2]]⟩) 2)
        (initial (fun _ ↦ true) 5 ∅) pairSchedule = some s ∧
      s.phase 0 = .returned (.error .throttled) ∧ s.phase 1 = .returned (.ok 5) ∧
      s.Correct (fun call ↦ ⟨call + 1, [.put [1] [2]]⟩) ∅ := by
  have hruns : ∃ s, run (step (fun call ↦ ⟨call + 1, [.put [1] [2]]⟩) 2)
        (initial (fun _ ↦ true) 5 ∅) pairSchedule = some s ∧
      s.phase 0 = .returned (.error .throttled) ∧ s.phase 1 = .returned (.ok 5) :=
    ⟨_, rfl, rfl, rfl⟩
  obtain ⟨s, hrun, hfirst, hsecond⟩ := hruns
  exact ⟨s, hrun, hfirst, hsecond, (groupCommit_correct _ _ _ _ _ _ s hrun).1⟩

/-! ## The queue stays empty -/

/-- A request is queued only behind another one, so when all calls begin with an
empty queue, every one of them commits alone. -/
theorem queue_unused {commitSeq : ℕ}
    (hrun : run (step calls count) (initial (fun _ ↦ false) commitSeq memtable)
      schedule = some s) :
    s.pendingWrites = [] ∧ ∀ call, (s.phase call).Alone := by
  have hinitial : ∀ call,
      ((initial (fun _ ↦ false) commitSeq memtable).phase call).Alone := fun _ ↦ by
    simp [initial, CallPhase.Alone]
  refine (stepsMeet_true _ schedule).run_invariant
    (I := fun s : WriteQueue ↦ s.pendingWrites = [] ∧ ∀ call, (s.phase call).Alone)
    (fun s turn t hinv _ hstep ↦ ?_) ⟨rfl, hinitial⟩ hrun
  obtain ⟨hnil, halone⟩ := hinv
  have hmine := halone turn.call
  have hupdate : ∀ phase : CallPhase, phase.Alone →
      ∀ call, (update s.phase turn.call phase call).Alone := fun phase hphase call ↦ by
    by_cases heq : call = turn.call
    · rw [heq, update_self]
      exact hphase
    · rw [update_of_ne heq]
      exact halone call
  cases (moves_of_step hstep).2 with
  | look hphase hnext =>
    obtain rfl := hnext.resolve_right fun h ↦ h.2 hnil
    exact ⟨hnil, hupdate _ trivial⟩
  | giveUp hphase hne => exact absurd hnil hne
  | lockFast | alone | single => exact ⟨hnil, hupdate _ trivial⟩
  | receive hphase hchannel =>
    rcases hphase with hphase | ⟨hphase, -⟩ <;> rw [hphase] at hmine <;> exact hmine.elim
  | enqueue hphase | lockQueued hphase | notYet hphase | drainNone hphase | drain hphase
  | flush hphase =>
    rw [hphase] at hmine
    exact hmine.elim

theorem queue_unused_twoCalls :
    ∃ s, run (step (fun call ↦ ⟨call + 1, [.put [1] [2]]⟩) 2) (initial (fun _ ↦ false) 5 ∅)
        ([0, 1, 1, 1, 1, 0, 0, 0].map fun call ↦ ⟨call, fun _ ↦ .ok (), .appended⟩) = some s ∧
      s.phase 0 = .returned (.ok 6) ∧ s.phase 1 = .returned (.ok 5) ∧ s.pendingWrites = [] := by
  obtain ⟨s, hrun, hreturned⟩ : ∃ s, run (step (fun call ↦ ⟨call + 1, [.put [1] [2]]⟩) 2)
      (initial (fun _ ↦ false) 5 ∅)
      ([0, 1, 1, 1, 1, 0, 0, 0].map fun call ↦ ⟨call, fun _ ↦ .ok (), .appended⟩) = some s ∧
      s.phase 0 = .returned (.ok 6) ∧ s.phase 1 = .returned (.ok 5) := ⟨_, rfl, rfl, rfl⟩
  exact ⟨s, hrun, hreturned.1, hreturned.2, (queue_unused hrun).1⟩

end WriteQueue

end HatP
