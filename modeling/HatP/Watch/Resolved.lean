import HatP.Concurrent.WriteQueue
import HatP.Watch.Watcher

/-!
# The resolved watermark

The group commit protocol with the steps under the write guard taken apart: the
hooks, the append, and for every request its timestamp, the installation of its
mutations one by one, the answer and the steps of the publish.  At every moment
the watermark covers only commits that are in the log and in the memtable, and
the events leave in the order of the commits.
-/

namespace HatP

open Ledger Transition

namespace Ledger

def takeTimestamp (l : Ledger) (call : ℕ) : Ledger :=
  { l with commitSeq := l.commitSeq + 1, applied := l.applied ++ [(call, l.commitSeq)] }

def install (calls : ℕ → WriteCall) (call commitTs : ℕ) (l : Ledger) (m : Mutation) : Ledger :=
  { l with memtable := l.memtable.applyMutation (calls call).txId commitTs m }

end Ledger

/-! ## The steps of a commit -/

/-- Where the commit of a call that holds the write guard stands, with the
requests that wait for their timestamps. -/
inductive CommitPhase
  | preCommit
  | append (passed : List ℕ)
  | takeTimestamp (queue : List ℕ)
  | install (call commitTs : ℕ) (left : List Mutation) (queue : List ℕ)
  | answer (call commitTs : ℕ) (queue : List ℕ)
  | publish (call commitTs : ℕ) (phase : PublishPhase) (queue : List ℕ)

structure WatchedQueue where
  queue : WriteQueue
  committing : ℕ → CommitPhase
  watcher : Watcher

inductive WatchedOp
  | turn (turn : Turn)
  | subscribe
  | unsubscribe

def WriteCall.event (call : WriteCall) (commitTs : ℕ) : WatchEvent :=
  ⟨call.txId, commitTs, call.mutations⟩

section Steps

variable (calls : ℕ → WriteCall)

def storeStep (l : Ledger) (w : Watcher) : CommitPhase → Option (Ledger × Watcher × CommitPhase)
  | .takeTimestamp (call :: queue) =>
    some (l.takeTimestamp call, w, .install call l.commitSeq (calls call).mutations queue)
  | .install call commitTs (m :: left) queue =>
    some (l.install calls call commitTs m, w, .install call commitTs left queue)
  | .install call commitTs [] queue => some (l, w, .answer call commitTs queue)
  | .publish call commitTs phase queue =>
    (w.publishStep ((calls call).event commitTs) phase).map fun (w, phase) ↦
      (l, w, .publish call commitTs phase queue)
  | _ => none

namespace WatchedQueue

def initial (queued : ℕ → Bool) (recovered : ℕ) (memtable : MemTable) : WatchedQueue where
  queue := .initial queued (recovered + 1) memtable
  committing _ := .preCommit
  watcher := .new recovered

def advance (s : WatchedQueue) (call : ℕ) (l : Ledger) (w : Watcher) (phase : CommitPhase) :
    WatchedQueue where
  queue := { s.queue with ledger := l }
  committing := Function.update s.committing call phase
  watcher := w

def finish (s : WatchedQueue) (call : ℕ) (queue : WriteQueue) : WatchedQueue :=
  { s with queue := queue, committing := Function.update s.committing call .preCommit }

/-- How the engine publishes, by whether somebody is subscribed. -/
def publishPhase (s : WatchedQueue) : PublishPhase :=
  if s.watcher.hasSubscribers then .publish else .publishEmpty

def singleStep (s : WatchedQueue) (turn : Turn) : Option WatchedQueue :=
  let l := s.queue.ledger
  match s.committing turn.call with
  | .preCommit =>
    match turn.verdict turn.call with
    | .error err =>
      some (s.finish turn.call
        { s.queue.unlock turn.call (.returned (.error err)) with
          ledger := l.reject [turn.call] })
    | .ok () => some (s.advance turn.call l s.watcher (.append [turn.call]))
  | .append passed =>
    match turn.outcome with
    | .failed frames err _ =>
      some (s.finish turn.call
        { s.queue.unlock turn.call (.returned (.error err)) with
          ledger := l.failAppend calls passed frames })
    | .appended =>
      some (s.advance turn.call (l.append calls passed) s.watcher (.takeTimestamp passed))
  | .answer call commitTs queue =>
    some (s.advance turn.call l s.watcher (.publish call commitTs s.publishPhase queue))
  | .publish _ commitTs .done _ =>
    some (s.finish turn.call (s.queue.unlock turn.call (.returned (.ok commitTs))))
  | phase =>
    (storeStep calls l s.watcher phase).map fun (l, w, phase) ↦ s.advance turn.call l w phase

def flushStep (s : WatchedQueue) (turn : Turn) (batch : List ℕ) : Option WatchedQueue :=
  let l := s.queue.ledger
  match s.committing turn.call with
  | .preCommit =>
    let (passed, refused) := preCommitAll turn.verdict batch
    let queue := { s.queue with
      ledger := l.reject (refused.map Prod.fst)
      channels := refused.foldl (fun channels answer ↦
        channels.send answer.1 (.error answer.2)) s.queue.channels }
    some (if passed = [] then s.finish turn.call (queue.move turn.call (.recv none))
      else { s with
        queue := queue
        committing := Function.update s.committing turn.call (.append passed) })
  | .append passed =>
    match turn.outcome with
    | .failed frames err text =>
      some (s.finish turn.call
        { s.queue.move turn.call (.recv (some err)) with
          ledger := l.failAppend calls passed frames
          channels := passed.foldl (fun channels call ↦ channels.send call
            (.error (.corruptMessage ("WAL append failed: " ++ text)))) s.queue.channels })
    | .appended =>
      some (s.advance turn.call (l.append calls passed) s.watcher (.takeTimestamp passed))
  | .takeTimestamp [] => some (s.finish turn.call (s.queue.move turn.call (.recv none)))
  | .answer call commitTs queue =>
    some { s.advance turn.call l s.watcher (.publish call commitTs s.publishPhase queue) with
      queue := { s.queue with channels := s.queue.channels.send call (.ok commitTs) } }
  | .publish _ _ .done queue => some (s.advance turn.call l s.watcher (.takeTimestamp queue))
  | phase =>
    (storeStep calls l s.watcher phase).map fun (l, w, phase) ↦ s.advance turn.call l w phase

def turnStep (count : ℕ) (s : WatchedQueue) (turn : Turn) : Option WatchedQueue :=
  match s.queue.phase turn.call with
  | .single => s.singleStep calls turn
  | .flush batch => s.flushStep calls turn batch
  | _ => (s.queue.step calls count turn).map fun queue ↦ { s with queue := queue }

def step (count : ℕ) (s : WatchedQueue) : WatchedOp → Option WatchedQueue
  | .turn turn => if count ≤ turn.call then none else s.turnStep calls count turn
  | .subscribe =>
    some { s with watcher := { s.watcher with receivers := s.watcher.receivers + 1 } }
  | .unsubscribe =>
    some { s with watcher := { s.watcher with receivers := s.watcher.receivers - 1 } }

end WatchedQueue

end Steps

/-! ## What holds of the store during a commit -/

namespace CommitPhase

def queue : CommitPhase → List ℕ
  | takeTimestamp queue | install _ _ _ queue | answer _ _ queue | publish _ _ _ queue => queue
  | preCommit | append _ => []

def current : CommitPhase → Option (ℕ × ℕ)
  | install call commitTs _ _ | answer call commitTs _ | publish call commitTs _ _ =>
    some (call, commitTs)
  | preCommit | append _ | takeTimestamp _ => none

def installing : CommitPhase → Option (ℕ × ℕ)
  | install call commitTs _ _ => some (call, commitTs)
  | _ => none

def unsent : CommitPhase → Option (ℕ × ℕ)
  | install call commitTs _ _ | answer call commitTs _
  | publish call commitTs .countReceivers _ | publish call commitTs (.fetchMax _) _
  | publish call commitTs .send _ => some (call, commitTs)
  | _ => none

end CommitPhase

section Store

variable (calls : ℕ → WriteCall)

def Ledger.HasFrames (l : Ledger) (call : ℕ) : Prop :=
  (calls call).frames.map (Prod.mk call) <:+: l.wal

def Ledger.HasInstalled (l : Ledger) (commit : ℕ × ℕ) : Prop :=
  ∀ key value, netEffect (calls commit.1).mutations key = some value →
    (commit.2, value) ∈ stamps (l.memtable.chain key).versions

def Ledger.HasPart (l : Ledger) (commit : ℕ × ℕ) (left : List Mutation) : Prop :=
  ∃ part, (calls commit.1).mutations = part ++ left ∧
    ∀ key value, netEffect part key = some value →
      (commit.2, value) ∈ stamps (l.memtable.chain key).versions

structure StoreInv (l : Ledger) (w : Watcher) (phase : CommitPhase) : Prop where
  below : ∀ commit ∈ l.applied, commit.2 < l.commitSeq
  unique : ∀ commit ∈ l.applied, ∀ other ∈ l.applied, commit.2 = other.2 → commit = other
  logged : ∀ commit ∈ l.applied, l.HasFrames calls commit.1
  queued : ∀ call ∈ phase.queue, l.HasFrames calls call
  current : ∀ commit, phase.current = some commit → commit ∈ l.applied ∧ commit.2 + 1 = l.commitSeq
  installed : ∀ commit ∈ l.applied, phase.installing ≠ some commit → l.HasInstalled calls commit
  partly : ∀ call commitTs left queue, phase = .install call commitTs left queue →
    w.resolved < commitTs ∧ l.HasPart calls (call, commitTs) left
  resolved : w.resolved < l.commitSeq
  ordered : (w.events.map WatchEvent.commitTs).Pairwise (· < ·)
  faithful : ∀ event ∈ w.events, ∃ commit ∈ l.applied,
    event = (calls commit.1).event commit.2
  unsent : ∀ commit, phase.unsent = some commit → ∀ event ∈ w.events, event.commitTs < commit.2

end Store

/-- The log has grown, and nothing else. -/
structure Ledger.LogsTo (l l' : Ledger) : Prop where
  commitSeq : l'.commitSeq = l.commitSeq
  memtable : l'.memtable = l.memtable
  applied : l'.applied = l.applied
  wal : l.wal <+: l'.wal

theorem Ledger.LogsTo.hasFrames {calls : ℕ → WriteCall} {l l' : Ledger} (h : l.LogsTo l')
    {call : ℕ} (hframes : l.HasFrames calls call) : l'.HasFrames calls call :=
  hframes.trans h.wal.isInfix

theorem CommitPhase.unsent_eq_none {phase : CommitPhase} (h : phase.current = none) :
    phase.unsent = none := by
  cases phase with
  | preCommit | append | takeTimestamp => rfl
  | install | answer | publish => cases h

namespace StoreInv

variable {queue : List ℕ} {call commitTs : ℕ}

variable {calls : ℕ → WriteCall} {l l' : Ledger} {w : Watcher} {phase : CommitPhase}
  {phase' : CommitPhase}

theorem initial (recovered : ℕ) (memtable : MemTable) :
    StoreInv calls ⟨[], recovered + 1, memtable, [], [], [], []⟩ (.new recovered) .preCommit where
  below _ h := by cases h
  unique _ h := by cases h
  logged _ h := by cases h
  queued _ h := by cases h
  current _ h := by cases h
  installed _ h := by cases h
  partly _ _ _ _ h := by cases h
  resolved := Nat.lt_succ_self recovered
  ordered := List.Pairwise.nil
  faithful _ h := by cases h
  unsent _ h := by cases h

theorem truthful (h : StoreInv calls l w phase) {commit : ℕ × ℕ} (hmem : commit ∈ l.applied)
    (hle : commit.2 ≤ w.resolved) : l.HasFrames calls commit.1 ∧ l.HasInstalled calls commit := by
  refine ⟨h.logged commit hmem, h.installed commit hmem fun hinstalling ↦ ?_⟩
  cases phase with
  | install call commitTs left queue =>
    cases hinstalling
    exact absurd hle (not_le.mpr (h.partly call commitTs left queue rfl).1)
  | _ => cases hinstalling

theorem hasFrames_append {batch : List ℕ} (hmem : call ∈ batch) :
    (l.append calls batch).HasFrames calls call := by
  obtain ⟨before, after, rfl⟩ := List.append_of_mem hmem
  refine ⟨l.wal ++ taggedFrames calls before, taggedFrames calls after, ?_⟩
  simp [append, taggedFrames]

theorem settled (h : StoreInv calls l w phase) (hl : l.LogsTo l')
    (hdone : phase.installing = none) (hnext : phase'.current = none)
    (hqueue : ∀ call ∈ phase'.queue, call ∈ phase.queue ∨ l'.HasFrames calls call) :
    StoreInv calls l' w phase' where
  below commit hmem := by
    rw [hl.commitSeq]
    exact h.below commit (hl.applied ▸ hmem)
  unique commit hmem other hother :=
    h.unique commit (hl.applied ▸ hmem) other (hl.applied ▸ hother)
  logged commit hmem := hl.hasFrames (h.logged commit (hl.applied ▸ hmem))
  queued call hmem := (hqueue call hmem).elim (fun hold ↦ hl.hasFrames (h.queued call hold)) id
  current commit hcurrent := by
    rw [hnext] at hcurrent
    cases hcurrent
  installed commit hmem _ := by
    have hinstalled := h.installed commit (hl.applied ▸ hmem) (by rw [hdone]; exact nofun)
    rw [HasInstalled, hl.memtable]
    exact hinstalled
  partly call commitTs left queue hphase := by
    rw [hphase] at hnext
    cases hnext
  resolved := by
    rw [hl.commitSeq]
    exact h.resolved
  ordered := h.ordered
  faithful event hmem := by
    rw [hl.applied]
    exact h.faithful event hmem
  unsent commit hunsent := by
    rw [CommitPhase.unsent_eq_none hnext] at hunsent
    cases hunsent

theorem takeTimestamp (h : StoreInv calls l w (.takeTimestamp (call :: queue))) :
    StoreInv calls (l.takeTimestamp call) w
      (.install call l.commitSeq (calls call).mutations queue) where
  below commit hmem := by
    rcases List.mem_append.mp hmem with hold | hnew
    · exact (h.below commit hold).trans (Nat.lt_succ_self _)
    · obtain rfl := List.mem_singleton.mp hnew
      exact Nat.lt_succ_self _
  unique commit hmem other hother heq := by
    rcases List.mem_append.mp hmem with hold | hnew <;>
      rcases List.mem_append.mp hother with hold' | hnew'
    · exact h.unique commit hold other hold' heq
    · obtain rfl := List.mem_singleton.mp hnew'
      exact absurd heq (h.below commit hold).ne
    · obtain rfl := List.mem_singleton.mp hnew
      exact absurd heq (h.below other hold').ne'
    · rw [List.mem_singleton.mp hnew, List.mem_singleton.mp hnew']
  logged commit hmem := by
    rcases List.mem_append.mp hmem with hold | hnew
    · exact h.logged commit hold
    · obtain rfl := List.mem_singleton.mp hnew
      exact h.queued call (.head _)
  queued other hmem := h.queued other (List.mem_cons_of_mem call hmem)
  current commit hcurrent := by
    cases hcurrent
    exact ⟨List.mem_append_right _ (.head _), rfl⟩
  installed commit hmem hne := by
    rcases List.mem_append.mp hmem with hold | hnew
    · exact h.installed commit hold nofun
    · obtain rfl := List.mem_singleton.mp hnew
      exact absurd rfl hne
  partly other commitTs left queue hphase := by
    cases hphase
    exact ⟨h.resolved, [], rfl, fun _ _ hnet ↦ nomatch hnet⟩
  resolved := h.resolved.trans (Nat.lt_succ_self _)
  ordered := h.ordered
  faithful event hmem := by
    obtain ⟨commit, hold, rfl⟩ := h.faithful event hmem
    exact ⟨commit, List.mem_append_left _ hold, rfl⟩
  unsent commit hunsent event hmem := by
    cases hunsent
    obtain ⟨commit, hold, rfl⟩ := h.faithful event hmem
    exact h.below commit hold

theorem install {m : Mutation} {left : List Mutation}
    (h : StoreInv calls l w (.install call commitTs (m :: left) queue)) :
    StoreInv calls (l.install calls call commitTs m) w (.install call commitTs left queue) where
  below := h.below
  unique := h.unique
  logged := h.logged
  queued := h.queued
  current := h.current
  installed commit hmem hne key value hnet := by
    have hcurrent := (h.current (call, commitTs) rfl).1
    refine MemTable.mem_stamps_applyMutation.mpr (.inr ⟨fun _ hts ↦ ?_, ?_⟩)
    · exact hne (congrArg some (h.unique _ hcurrent commit hmem hts.symm))
    · exact h.installed commit hmem hne key value hnet
  partly other ts rest queue' hphase := by
    cases hphase
    obtain ⟨hlt, part, hpart, hstamps⟩ := h.partly call commitTs (m :: left) queue rfl
    refine ⟨hlt, part ++ [m], by rw [hpart]; simp, fun key value hnet ↦ ?_⟩
    rw [netEffect_concat] at hnet
    refine MemTable.mem_stamps_applyMutation.mpr ?_
    split at hnet
    next hkey => exact .inl ⟨hkey, congrArg (Prod.mk commitTs) (Option.some.inj hnet).symm⟩
    next hkey => exact .inr ⟨fun heq ↦ absurd heq hkey, hstamps key value hnet⟩
  resolved := h.resolved
  ordered := h.ordered
  faithful := h.faithful
  unsent := h.unsent

theorem installedAll (h : StoreInv calls l w (.install call commitTs [] queue)) :
    StoreInv calls l w (.answer call commitTs queue) :=
  { h with
    installed := fun commit hmem _ ↦ by
      by_cases heq : commit = (call, commitTs)
      · obtain ⟨-, part, hpart, hstamps⟩ := h.partly call commitTs [] queue rfl
        rw [List.append_nil] at hpart
        rw [heq, HasInstalled, hpart]
        exact hstamps
      · exact h.installed commit hmem fun hsome ↦ heq (Option.some.inj hsome).symm
    partly := nofun }

theorem answer {start : PublishPhase} (h : StoreInv calls l w (.answer call commitTs queue))
    (hstart : start = .publish ∨ start = .publishEmpty) :
    StoreInv calls l w (.publish call commitTs start queue) :=
  { h with
    installed := fun commit hmem _ ↦ h.installed commit hmem nofun
    partly := nofun
    unsent := by
      rcases hstart with rfl | rfl
      · exact h.unsent
      · exact h.unsent }

/-- The timestamp of the publish is the newest one, so the watermark stays below
the next, and the event comes after all others. -/
theorem publishStep {publishing next : PublishPhase}
    {w' : Watcher} (h : StoreInv calls l w (.publish call commitTs publishing queue))
    (hstep : w.publishStep ((calls call).event commitTs) publishing = some (w', next)) :
    StoreInv calls l w' (.publish call commitTs next queue) := by
  obtain ⟨hmem, hlast⟩ := h.current (call, commitTs) rfl
  cases publishing with
  | countReceivers =>
    cases hstep
    exact { h with unsent := h.unsent, partly := nofun }
  | fetchMax sends =>
    cases hstep
    refine { h with partly := nofun, resolved := ?_, unsent := ?_ }
    · exact max_lt h.resolved (Nat.lt_of_succ_le hlast.le)
    · cases sends with
      | false => exact nofun
      | true => exact h.unsent
  | send =>
    cases hstep
    refine { h with partly := nofun, ordered := ?_, faithful := ?_, unsent := nofun }
    · dsimp only
      split
      next =>
        rw [List.map_append, List.pairwise_append]
        refine ⟨h.ordered, List.pairwise_singleton _ _, fun ts hts other hother ↦ ?_⟩
        obtain ⟨event, hevent, rfl⟩ := List.mem_map.mp hts
        rw [List.mem_singleton.mp hother]
        exact h.unsent (call, commitTs) rfl event hevent
      next => exact h.ordered
    · intro event hevent
      dsimp only at hevent
      split at hevent
      next =>
        rcases List.mem_append.mp hevent with hold | hnew
        · exact h.faithful event hold
        · exact ⟨(call, commitTs), hmem, List.mem_singleton.mp hnew⟩
      next => exact h.faithful event hevent
  | notify =>
    cases hstep
    exact { h with partly := nofun, unsent := nofun }
  | done => cases hstep

theorem storeStep {w' : Watcher} (h : StoreInv calls l w phase)
    (hstep : storeStep calls l w phase = some (l', w', phase')) : StoreInv calls l' w' phase' := by
  rw [HatP.storeStep.eq_def] at hstep
  split at hstep
  next =>
    cases hstep
    exact h.takeTimestamp
  next =>
    cases hstep
    exact h.install
  next =>
    cases hstep
    exact h.installedAll
  next =>
    obtain ⟨⟨w', next⟩, hpublish, heq⟩ := Option.map_eq_some_iff.mp hstep
    cases heq
    exact h.publishStep hpublish
  next => cases hstep

end StoreInv

/-! ## What one step does -/

section Moves

variable {calls : ℕ → WriteCall} {count : ℕ} {s t : WatchedQueue} {turn : Turn}

/-- What a step of a commit does to the store and to the watcher. -/
inductive StoreMoves (calls : ℕ → WriteCall) (l : Ledger) (w : Watcher) :
    CommitPhase → Ledger → Watcher → CommitPhase → Prop
  | settle {l' : Ledger} {phase phase' : CommitPhase} (hl : l.LogsTo l')
      (hdone : phase.installing = none) (hnext : phase'.current = none)
      (hqueue : ∀ call ∈ phase'.queue, call ∈ phase.queue ∨ l'.HasFrames calls call) :
      StoreMoves calls l w phase l' w phase'
  | answer {call commitTs : ℕ} {queue : List ℕ} {start : PublishPhase}
      (hstart : start = .publish ∨ start = .publishEmpty) :
      StoreMoves calls l w (.answer call commitTs queue) l w
        (.publish call commitTs start queue)
  | step {l' : Ledger} {w' : Watcher} {phase phase' : CommitPhase}
      (hstep : storeStep calls l w phase = some (l', w', phase')) :
      StoreMoves calls l w phase l' w' phase'

variable {phase : CommitPhase} {l : Ledger} {w w' : Watcher} {phase' : CommitPhase}

theorem StoreMoves.storeInv {l' : Ledger}
    (hmoves : StoreMoves calls l w phase l' w' phase') (h : StoreInv calls l w phase) :
    StoreInv calls l' w' phase' := by
  cases hmoves with
  | settle hl hdone hnext hqueue => exact h.settled hl hdone hnext hqueue
  | answer hstart => exact h.answer hstart
  | step hstep => exact h.storeStep hstep

theorem Watcher.resolved_le_of_publishStep {event : WatchEvent}
    {phase phase' : PublishPhase} (h : w.publishStep event phase = some (w', phase')) :
    w.resolved ≤ w'.resolved := by
  cases phase with
  | fetchMax sends =>
    cases h
    exact le_max_left _ _
  | countReceivers | send | notify =>
    cases h
    exact le_rfl
  | done => cases h

theorem StoreMoves.resolved_le {l' : Ledger}
    (hmoves : StoreMoves calls l w phase l' w' phase') : w.resolved ≤ w'.resolved := by
  cases hmoves with
  | settle | answer => exact le_rfl
  | step hstep =>
    rw [storeStep.eq_def] at hstep
    split at hstep
    next =>
      cases hstep
      exact le_rfl
    next =>
      cases hstep
      exact le_rfl
    next =>
      cases hstep
      exact le_rfl
    next =>
      obtain ⟨⟨w', next⟩, hpublish, heq⟩ := Option.map_eq_some_iff.mp hstep
      cases heq
      exact Watcher.resolved_le_of_publishStep hpublish
    next => cases hstep

def CallPhase.Commits : CallPhase → Prop
  | .single | .flush _ => True
  | _ => False

theorem CallPhase.Commits.holds {phase : CallPhase} (h : phase.Commits) : phase.Holds := by
  cases phase with
  | single | flush => trivial
  | _ => cases h

/-- What a step of a commit does to the whole state. -/
structure Commits (calls : ℕ → WriteCall) (s : WatchedQueue) (call : ℕ) (t : WatchedQueue)
    (phase : CommitPhase) : Prop where
  committing : t.committing = Function.update s.committing call phase
  guarded : s.queue.Guarded → t.queue.Guarded
  stays : phase ≠ .preCommit → t.queue.phase = s.queue.phase
  store : StoreMoves calls s.queue.ledger s.watcher (s.committing call) t.queue.ledger t.watcher
    phase

theorem Ledger.logsTo_refl (l : Ledger) : l.LogsTo l := ⟨rfl, rfl, rfl, List.prefix_rfl⟩

theorem Ledger.logsTo_reject (l : Ledger) (batch : List ℕ) : l.LogsTo (l.reject batch) :=
  ⟨rfl, rfl, rfl, List.prefix_rfl⟩

theorem Ledger.logsTo_append (l : Ledger) (batch : List ℕ) : l.LogsTo (l.append calls batch) :=
  ⟨rfl, rfl, rfl, List.prefix_append _ _⟩

theorem Ledger.logsTo_failAppend (l : Ledger) (batch : List ℕ) (frames : ℕ) :
    l.LogsTo (l.failAppend calls batch frames) :=
  ⟨rfl, rfl, rfl, List.prefix_append _ _⟩

theorem WatchedQueue.publishPhase_eq (s : WatchedQueue) :
    s.publishPhase = .publish ∨ s.publishPhase = .publishEmpty := by
  rw [publishPhase]
  split
  next => exact .inl rfl
  next => exact .inr rfl

theorem commits_advance {call : ℕ}
    (hstore : StoreMoves calls s.queue.ledger s.watcher (s.committing call) l w phase) :
    Commits calls s call (s.advance call l w phase) phase :=
  ⟨rfl, id, fun _ ↦ rfl, hstore⟩

theorem commits_finish {queue : WriteQueue} {call : ℕ}
    (hguarded : s.queue.Guarded → queue.Guarded) (hl : s.queue.ledger.LogsTo queue.ledger)
    (hdone : (s.committing call).installing = none) :
    Commits calls s call (s.finish call queue) .preCommit :=
  ⟨rfl, hguarded, absurd rfl, .settle hl hdone rfl nofun⟩

theorem commits_of_singleStep (hphase : s.queue.phase turn.call = .single)
    (hstep : s.singleStep calls turn = some t) : ∃ phase, Commits calls s turn.call t phase := by
  have hholds : (s.queue.phase turn.call).Holds := by
    rw [hphase]
    trivial
  rw [WatchedQueue.singleStep] at hstep
  split at hstep
  next hat =>
    split at hstep
    next =>
      cases hstep
      exact ⟨_, commits_finish (fun h ↦ h.unlock hholds id) (logsTo_reject _ _)
        (by rw [hat]; rfl)⟩
    next =>
      cases hstep
      refine ⟨_, commits_advance (.settle (logsTo_refl _) ?_ rfl nofun)⟩
      rw [hat]
      rfl
  next passed hat =>
    split at hstep
    next =>
      cases hstep
      exact ⟨_, commits_finish (fun h ↦ h.unlock hholds id) (logsTo_failAppend _ _ _)
        (by rw [hat]; rfl)⟩
    next =>
      cases hstep
      refine ⟨_, commits_advance (.settle (logsTo_append _ _) ?_ rfl fun call hmem ↦
        .inr (StoreInv.hasFrames_append hmem))⟩
      rw [hat]
      rfl
  next call commitTs queue hat =>
    cases hstep
    refine ⟨_, commits_advance ?_⟩
    rw [hat]
    exact .answer s.publishPhase_eq
  next hat =>
    cases hstep
    exact ⟨_, commits_finish (fun h ↦ h.unlock hholds id) (logsTo_refl _)
      (by rw [hat]; rfl)⟩
  next =>
    obtain ⟨⟨l, w, phase⟩, hstore, rfl⟩ := Option.map_eq_some_iff.mp hstep
    exact ⟨phase, commits_advance (.step hstore)⟩

theorem commits_of_flushStep {batch : List ℕ} (hphase : s.queue.phase turn.call = .flush batch)
    (hstep : s.flushStep calls turn batch = some t) :
    ∃ phase, Commits calls s turn.call t phase := by
  have hrecv : ∀ failure, s.queue.Guarded →
      (s.queue.move turn.call (.recv failure)).Guarded := fun failure h ↦
    h.move (by rw [hphase]; rfl)
  rw [WatchedQueue.flushStep] at hstep
  split at hstep
  next hat =>
    cases hstep
    split
    next =>
      exact ⟨_, commits_finish (hrecv none) (logsTo_reject _ _) (by rw [hat]; rfl)⟩
    next =>
      refine ⟨_, rfl, id, fun _ ↦ rfl, .settle (logsTo_reject _ _) ?_ rfl nofun⟩
      rw [hat]
      rfl
  next passed hat =>
    split at hstep
    next =>
      cases hstep
      exact ⟨_, commits_finish (hrecv _) (logsTo_failAppend _ _ _) (by rw [hat]; rfl)⟩
    next =>
      cases hstep
      refine ⟨_, commits_advance (.settle (logsTo_append _ _) ?_ rfl fun call hmem ↦
        .inr (StoreInv.hasFrames_append hmem))⟩
      rw [hat]
      rfl
  next hat =>
    cases hstep
    exact ⟨_, commits_finish (hrecv none) (logsTo_refl _) (by rw [hat]; rfl)⟩
  next call commitTs queue hat =>
    cases hstep
    refine ⟨_, rfl, id, fun _ ↦ rfl, ?_⟩
    rw [hat]
    exact .answer s.publishPhase_eq
  next call commitTs queue hat =>
    cases hstep
    refine ⟨_, commits_advance (.settle (logsTo_refl _) ?_ rfl fun call hmem ↦ ?_)⟩
    · rw [hat]
      rfl
    · rw [hat]
      exact .inl hmem
  next =>
    obtain ⟨⟨l, w, phase⟩, hstore, rfl⟩ := Option.map_eq_some_iff.mp hstep
    exact ⟨phase, commits_advance (.step hstore)⟩

theorem ledger_eq_of_moves {q q' : WriteQueue} (h : Moves calls q turn q')
    (hout : ¬(q.phase turn.call).Commits) : q'.ledger = q.ledger := by
  cases h with
  | single hphase | flush hphase =>
    rw [hphase] at hout
    exact absurd trivial hout
  | _ => rfl

/-- The steps of the protocol outside the commits, or a step of a commit, or of a
subscriber. -/
theorem cases_of_step {op : WatchedOp} (hstep : s.step calls count op = some t) :
    (∃ turn queue, Moves calls s.queue turn queue ∧ ¬(s.queue.phase turn.call).Commits ∧
      t = { s with queue := queue }) ∨
    (∃ call phase, (s.queue.phase call).Commits ∧ Commits calls s call t phase) ∨
    ∃ receivers, t = { s with watcher := { s.watcher with receivers := receivers } } := by
  cases op with
  | subscribe | unsubscribe =>
    cases hstep
    exact .inr (.inr ⟨_, rfl⟩)
  | turn turn =>
    rw [WatchedQueue.step] at hstep
    split at hstep
    next => cases hstep
    next =>
    rw [WatchedQueue.turnStep] at hstep
    split at hstep
    next hphase =>
      obtain ⟨phase, hcommits⟩ := commits_of_singleStep hphase hstep
      exact .inr (.inl ⟨turn.call, phase, by rw [hphase]; trivial, hcommits⟩)
    next batch hphase =>
      obtain ⟨phase, hcommits⟩ := commits_of_flushStep hphase hstep
      exact .inr (.inl ⟨turn.call, phase, by rw [hphase]; trivial, hcommits⟩)
    next hsingle hflush =>
      obtain ⟨queue, hqueue, rfl⟩ := Option.map_eq_some_iff.mp hstep
      refine .inl ⟨turn, queue, (moves_of_step hqueue).2, fun hcommits ↦ ?_, rfl⟩
      cases hphase : s.queue.phase turn.call with
      | single => exact hsingle hphase
      | flush batch => exact hflush batch hphase
      | _ =>
        rw [hphase] at hcommits
        exact hcommits

theorem resolved_le_of_step {op : WatchedOp} (hstep : s.step calls count op = some t) :
    s.watcher.resolvedTs ≤ t.watcher.resolvedTs := by
  rcases cases_of_step hstep with ⟨_, _, -, -, rfl⟩ | ⟨_, _, -, hcommits⟩ | ⟨_, rfl⟩
  · exact le_rfl
  · exact hcommits.store.resolved_le
  · exact le_rfl

end Moves

/-! ## The invariant -/

namespace WatchedQueue

variable {calls : ℕ → WriteCall} {count : ℕ} {s t : WatchedQueue}

/-- At most one call is inside a commit, and `phase` says where. -/
structure Active (s : WatchedQueue) (phase : CommitPhase) : Prop where
  only : ∀ call, s.committing call ≠ .preCommit → s.committing call = phase
  some : phase ≠ .preCommit → ∃ call, s.committing call = phase

structure Inv (calls : ℕ → WriteCall) (s : WatchedQueue) : Prop where
  guarded : s.queue.Guarded
  commits : ∀ call, s.committing call ≠ .preCommit → (s.queue.phase call).Commits
  store : ∃ phase, s.Active phase ∧ StoreInv calls s.queue.ledger s.watcher phase

theorem inv_initial (queued : ℕ → Bool) (recovered : ℕ) (memtable : MemTable) :
    Inv calls (initial queued recovered memtable) where
  guarded call := by
    cases hqueued : queued call <;> simp [initial, WriteQueue.initial, hqueued, CallPhase.Holds]
  commits _ hne := absurd rfl hne
  store := ⟨.preCommit, ⟨fun _ hne ↦ absurd rfl hne, fun hne ↦ absurd rfl hne⟩,
    StoreInv.initial recovered memtable⟩

section

variable (h : s.Inv calls) {call : ℕ}

include h

theorem Inv.others {other : ℕ} (hcommits : (s.queue.phase call).Commits)
    (hne : other ≠ call) : s.committing other = .preCommit := by
  by_contra hother
  exact h.guarded.not_holds hcommits.holds hne (h.commits other hother).holds

theorem Inv.storeInv (hcommits : (s.queue.phase call).Commits) :
    StoreInv calls s.queue.ledger s.watcher (s.committing call) := by
  obtain ⟨phase, hactive, hstore⟩ := h.store
  by_cases hidle : s.committing call = .preCommit
  · by_cases hphase : phase = .preCommit
    · rw [hidle, ← hphase]
      exact hstore
    · obtain ⟨other, hother⟩ := hactive.some hphase
      have hne : other ≠ call := by
        rintro rfl
        exact hphase (hother.symm.trans hidle)
      exact absurd (hother.symm.trans (h.others hcommits hne)) hphase
  · rw [hactive.only call hidle]
    exact hstore

theorem Inv.committed {phase : CommitPhase}
    (hcall : (s.queue.phase call).Commits) (hcommits : Commits calls s call t phase) :
    t.Inv calls := by
  have hother : ∀ other, other ≠ call → t.committing other = .preCommit := by
    intro other hne
    rw [hcommits.committing, Function.update_of_ne hne]
    exact h.others hcall hne
  have hself : t.committing call = phase := by
    rw [hcommits.committing, Function.update_self]
  have hcase : ∀ other, t.committing other ≠ .preCommit → other = call := fun other hne ↦
    by_contra fun hdiff ↦ hne (hother other hdiff)
  refine ⟨hcommits.guarded h.guarded, fun other hne ↦ ?_, phase, ⟨fun other hne ↦ ?_, ?_⟩, ?_⟩
  · obtain rfl := hcase other hne
    rw [hself] at hne
    rw [hcommits.stays hne]
    exact hcall
  · rw [hcase other hne, hself]
  · exact fun _ ↦ ⟨call, hself⟩
  · exact hcommits.store.storeInv (h.storeInv hcall)

theorem Inv.queueMoves {turn : Turn} {queue : WriteQueue}
    (hmoves : Moves calls s.queue turn queue) (hout : ¬(s.queue.phase turn.call).Commits) :
    Inv calls { s with queue := queue } := by
  obtain ⟨phase, hactive, hstore⟩ := h.store
  refine ⟨h.guarded.moves hmoves, fun call hne ↦ ?_, phase, ⟨hactive.only, hactive.some⟩, ?_⟩
  · have hcommits := h.commits call hne
    have hdiff : call ≠ turn.call := by
      rintro rfl
      exact hout hcommits
    obtain ⟨next, hnext, -⟩ := WriteQueue.phase_lt_of_moves hmoves
    rw [hnext, Function.update_of_ne hdiff]
    exact hcommits
  · rw [ledger_eq_of_moves hmoves hout]
    exact hstore

theorem Inv.step {op : WatchedOp} (hstep : s.step calls count op = some t) : t.Inv calls := by
  rcases cases_of_step hstep with ⟨_, _, hmoves, hout, rfl⟩ | ⟨_, _, hcall, hcommits⟩ | ⟨_, rfl⟩
  · exact h.queueMoves hmoves hout
  · exact h.committed hcall hcommits
  · obtain ⟨phase, hactive, hstore⟩ := h.store
    exact ⟨h.guarded, h.commits, phase, ⟨hactive.only, hactive.some⟩, { hstore with }⟩

end

/-! ## The watermark and the events -/

/-- What `resolved_ts` and the subscribers may rely on. -/
structure Truthful (calls : ℕ → WriteCall) (s : WatchedQueue) : Prop where
  /-- Every commit up to the watermark is logged and installed. -/
  resolved : ∀ commit ∈ s.queue.ledger.applied, commit.2 ≤ s.watcher.resolvedTs →
    s.queue.ledger.HasFrames calls commit.1 ∧ s.queue.ledger.HasInstalled calls commit
  increasing : (s.watcher.events.map WatchEvent.commitTs).Pairwise (· < ·)
  /-- An event carries the transaction and the mutations of its commit. -/
  faithful : ∀ event ∈ s.watcher.events, ∃ commit ∈ s.queue.ledger.applied,
    event = ⟨(calls commit.1).txId, commit.2, (calls commit.1).mutations⟩

theorem Inv.truthful (h : s.Inv calls) : s.Truthful calls := by
  obtain ⟨phase, -, hstore⟩ := h.store
  exact ⟨fun _ hmem hle ↦ hstore.truthful hmem hle, hstore.ordered, hstore.faithful⟩

/-- Whatever way the writers interleave, the watermark covers only commits that
are logged and installed, it never falls, and the events leave in the order of
the commits. -/
theorem resolved_truthful (calls : ℕ → WriteCall) (count : ℕ) (queued : ℕ → Bool)
    (recovered : ℕ) (memtable : MemTable) (ops : List WatchedOp) :
    Along (step calls count)
      (fun s ↦ s.Truthful calls ∧ ∀ rest t, run (step calls count) s rest = some t →
        s.watcher.resolvedTs ≤ t.watcher.resolvedTs)
      (initial queued recovered memtable) ops :=
  (stepsMeet_true _ ops).along (I := Inv calls)
    (fun _ _ _ hinv _ hstep ↦ hinv.step hstep)
    (fun s hinv ↦ ⟨hinv.truthful, fun more _ hrun ↦ (stepsMeet_true s more).run_invariant
      (I := fun t ↦ s.watcher.resolvedTs ≤ t.watcher.resolvedTs)
      (fun _ _ _ hle _ hstep ↦ hle.trans (resolved_le_of_step hstep)) le_rfl hrun⟩)
    (inv_initial queued recovered memtable)

/-- A subscriber sees the commit of a writer that finds the queue empty. -/
example :
    (run (step (fun call ↦ ⟨call + 1, [.put [1] [2]]⟩) 1)
      (initial (fun _ ↦ false) 5 ∅)
      (.subscribe :: List.replicate 14 (.turn ⟨0, fun _ ↦ .ok (), .appended⟩))).map
        (fun s ↦ (s.watcher.resolvedTs, s.watcher.events)) =
      some (6, [⟨1, 6, [.put [1] [2]]⟩]) := by
  decide

end WatchedQueue

end HatP
