import HatP.Lib.Run
import HatP.Memtable

/-!
# The commit watcher

A publish raises the resolved watermark, sends an event when somebody is
subscribed, and wakes the waiters.  A waiter loads the watermark and, when it is
too low, creates a future and awaits it.  The future is woken by the calls of
`notify_waiters` that come after its creation and by no earlier one, so a
publish that completes between the load and the creation is missed.
-/

namespace HatP

open Transition

structure WatchEvent where
  txId : ℕ
  commitTs : ℕ
  mutations : List Mutation
deriving DecidableEq

structure Watcher where
  resolved : ℕ
  /-- How often `notify_waiters` has been called. -/
  notified : ℕ
  /-- How many subscribers are attached. -/
  receivers : ℕ
  /-- The events that were sent to subscribers. -/
  events : List WatchEvent

/-- Where a call of `publish` or `publish_empty` stands. -/
inductive PublishPhase
  | countReceivers
  | fetchMax (sends : Bool)
  | send
  | notify
  | done
deriving DecidableEq

namespace PublishPhase

def publish : PublishPhase := countReceivers

def publishEmpty : PublishPhase := fetchMax false

def Pending : PublishPhase → Prop
  | send | notify => True
  | countReceivers | fetchMax _ | done => False

instance : DecidablePred Pending
  | send | notify => isTrue trivial
  | countReceivers | fetchMax _ | done => isFalse id

end PublishPhase

namespace Watcher

def new (initialResolved : ℕ) : Watcher := ⟨initialResolved, 0, 0, []⟩

def resolvedTs (w : Watcher) : ℕ := w.resolved

def hasSubscribers (w : Watcher) : Bool := decide (0 < w.receivers)

/-- The next step of a publish.  A broadcast without receivers sends nothing. -/
def publishStep (w : Watcher) (event : WatchEvent) :
    PublishPhase → Option (Watcher × PublishPhase)
  | .countReceivers => some (w, .fetchMax w.hasSubscribers)
  | .fetchMax sends =>
    some ({ w with resolved := max w.resolved event.commitTs },
      if sends then .send else .notify)
  | .send =>
    some ({ w with events := if w.hasSubscribers then w.events ++ [event] else w.events },
      .notify)
  | .notify => some ({ w with notified := w.notified + 1 }, .done)
  | .done => none

end Watcher

/-! ## Waiters -/

/-- Where a call of `wait_for_resolved` stands.  A future remembers how often
`notify_waiters` had been called when it was created. -/
inductive WaitPhase
  | load
  | create
  | poll (created : ℕ)
  | suspended (created : ℕ)
  | returned (current : ℕ)
deriving DecidableEq

namespace WaitPhase

def future : WaitPhase → Option ℕ
  | poll created | suspended created => some created
  | load | create | returned _ => none

end WaitPhase

structure Waiter where
  ts : ℕ
  phase : WaitPhase
deriving DecidableEq

def Watcher.waitStep (w : Watcher) (waiter : Waiter) : Option WaitPhase :=
  match waiter.phase with
  | .load => some (if waiter.ts ≤ w.resolvedTs then .returned w.resolvedTs else .create)
  | .create => some (.poll w.notified)
  | .poll created => some (if created < w.notified then .load else .suspended created)
  | .suspended created => if created < w.notified then some .load else none
  | .returned _ => none

structure Publisher where
  event : WatchEvent
  phase : PublishPhase
deriving DecidableEq

/-- The watcher with the calls that are under way. -/
structure Watch where
  watcher : Watcher
  waiters : List Waiter
  publishers : List Publisher

inductive WatchOp
  | waitForResolved (ts : ℕ)
  | publish (event : WatchEvent)
  | publishEmpty (txId commitTs : ℕ)
  | waiter (index : ℕ)
  | publisher (index : ℕ)
  | subscribe
  | unsubscribe

namespace Watch

variable {publisher : Publisher} {index : ℕ}

def initial (initialResolved : ℕ) : Watch := ⟨.new initialResolved, [], []⟩

def waiterStep (s : Watch) (index : ℕ) (waiter : Waiter) : Option Watch :=
  (s.watcher.waitStep waiter).map fun phase ↦
    { s with waiters := s.waiters.set index { waiter with phase := phase } }

def publisherStep (s : Watch) (index : ℕ) (publisher : Publisher) : Option Watch :=
  (s.watcher.publishStep publisher.event publisher.phase).map fun (watcher, phase) ↦
    { s with
      watcher := watcher
      publishers := s.publishers.set index { publisher with phase := phase } }

def step (s : Watch) : WatchOp → Option Watch
  | .waitForResolved ts => some { s with waiters := s.waiters ++ [⟨ts, .load⟩] }
  | .publish event => some { s with publishers := s.publishers ++ [⟨event, .publish⟩] }
  | .publishEmpty txId commitTs =>
    some { s with publishers := s.publishers ++ [⟨⟨txId, commitTs, []⟩, .publishEmpty⟩] }
  | .waiter index => s.waiters[index]?.bind (s.waiterStep index)
  | .publisher index => s.publishers[index]?.bind (s.publisherStep index)
  | .subscribe =>
    some { s with watcher := { s.watcher with receivers := s.watcher.receivers + 1 } }
  | .unsubscribe =>
    some { s with watcher := { s.watcher with receivers := s.watcher.receivers - 1 } }

def WakeupPending (s : Watch) : Prop := ∃ p ∈ s.publishers, p.phase.Pending

instance (s : Watch) : Decidable s.WakeupPending :=
  inferInstanceAs (Decidable (∃ p ∈ s.publishers, p.phase.Pending))

/-- Unless a publish will still wake it, no waiter is suspended on a future
created after the last `notify_waiters` while its timestamp has resolved. -/
def NoLostWakeup (s : Watch) : Prop :=
  ¬s.WakeupPending → ∀ waiter ∈ s.waiters,
    waiter.phase = .suspended s.watcher.notified → s.watcher.resolved < waiter.ts

/-- A waiter creates its future while its timestamp has not resolved, or while
the publish that resolved it will still wake it. -/
def CreatesInTime (s : Watch) : WatchOp → Prop
  | .waiter index => ∀ waiter ∈ s.waiters[index]?, waiter.phase = .create →
      s.watcher.resolved < waiter.ts ∨ s.WakeupPending
  | _ => True

instance (s : Watch) : DecidablePred s.CreatesInTime
  | .waiter index => inferInstanceAs (Decidable (∀ waiter ∈ s.waiters[index]?,
      waiter.phase = .create → s.watcher.resolved < waiter.ts ∨ s.WakeupPending))
  | .waitForResolved _ | .publish _ | .publishEmpty _ _ | .publisher _ | .subscribe
  | .unsubscribe => isTrue trivial

/-! ## The invariant -/

/-- A future is not from the future, and one that no notification has followed
belongs to a waiter that has nothing to miss. -/
def Covered (s : Watch) (waiter : Waiter) : Prop :=
  ∀ created, waiter.phase.future = some created → created ≤ s.watcher.notified ∧
    (created = s.watcher.notified → s.watcher.resolved < waiter.ts ∨ s.WakeupPending)

def Inv (s : Watch) : Prop := ∀ waiter ∈ s.waiters, s.Covered waiter

variable {s t : Watch} {publishers : List Publisher}

theorem Inv.noLostWakeup (h : s.Inv) : s.NoLostWakeup := by
  intro hpending waiter hmem hphase
  have hcovered := (h waiter hmem s.watcher.notified (by rw [hphase]; rfl)).2 rfl
  exact hcovered.resolve_right hpending

theorem Covered.of_same {s' : Watch} {waiter : Waiter} (h : s.Covered waiter)
    (hresolved : s'.watcher.resolved = s.watcher.resolved)
    (hnotified : s'.watcher.notified = s.watcher.notified)
    (hpending : s.WakeupPending → s'.WakeupPending) : s'.Covered waiter := by
  intro created hfuture
  rw [hnotified, hresolved]
  obtain ⟨hle, hcurrent⟩ := h created hfuture
  exact ⟨hle, fun heq ↦ (hcurrent heq).imp_right hpending⟩

theorem Inv.waiterStep (h : s.Inv) {waiter : Waiter}
    (hwaiter : s.waiters[index]? = some waiter) (hcond : s.CreatesInTime (.waiter index))
    (hstep : s.waiterStep index waiter = some t) : t.Inv := by
  obtain ⟨phase, hphase, rfl⟩ := Option.map_eq_some_iff.mp hstep
  have hold := h waiter (List.mem_of_getElem? hwaiter)
  have hcreate := hcond waiter hwaiter
  intro other hother
  rcases List.mem_or_eq_of_mem_set hother with hmem | rfl
  · exact h other hmem
  intro created hfuture
  unfold Watcher.waitStep at hphase
  split at hphase
  next =>
    cases hphase
    split at hfuture <;> cases hfuture
  next hat =>
    cases hphase
    cases hfuture
    exact ⟨le_rfl, fun _ ↦ hcreate hat⟩
  next polled hat =>
    cases hphase
    split at hfuture
    next => cases hfuture
    next => exact hold created (by rw [hat]; exact hfuture)
  next =>
    split at hphase
    next =>
      cases hphase
      cases hfuture
    next => cases hphase
  next => cases hphase

theorem pending_set {new : Publisher}
    (hat : publishers[index]? = some publisher) (hnew : new.phase.Pending) :
    ∃ p ∈ publishers.set index new, p.phase.Pending := by
  obtain ⟨hlt, -⟩ := List.getElem?_eq_some_iff.mp hat
  exact ⟨new, List.mem_set hlt new, hnew⟩

theorem pending_set_of_not {new : Publisher}
    (hat : publishers[index]? = some publisher) (hold : ¬publisher.phase.Pending)
    (h : ∃ p ∈ publishers, p.phase.Pending) : ∃ p ∈ publishers.set index new, p.phase.Pending := by
  obtain ⟨p, hp, hpending⟩ := h
  obtain ⟨other, hother⟩ := List.mem_iff_getElem?.mp hp
  have hne : index ≠ other := by
    rintro rfl
    rw [hat] at hother
    cases hother
    exact hold hpending
  refine ⟨p, List.mem_of_getElem? (i := other) ?_, hpending⟩
  rwa [List.getElem?_set_ne hne]

theorem Inv.publisherStep (h : s.Inv) (hpublisher : s.publishers[index]? = some publisher)
    (hstep : s.publisherStep index publisher = some t) : t.Inv := by
  obtain ⟨⟨watcher, phase⟩, hphase, rfl⟩ := Option.map_eq_some_iff.mp hstep
  intro waiter hwaiter
  have hcovered := h waiter hwaiter
  unfold Watcher.publishStep at hphase
  split at hphase
  next hat =>
    cases hphase
    exact hcovered.of_same rfl rfl
      (pending_set_of_not hpublisher (by rw [hat]; exact not_false))
  next sends hat =>
    -- the watermark rises, and from now on a wakeup is pending
    cases hphase
    have hpending : (if sends then PublishPhase.send else .notify).Pending := by
      cases sends <;> trivial
    intro created hfuture
    exact ⟨(hcovered created hfuture).1, fun _ ↦ .inr (pending_set hpublisher hpending)⟩
  next =>
    cases hphase
    exact hcovered.of_same rfl rfl fun _ ↦ pending_set hpublisher trivial
  next =>
    -- every future was created before this call
    cases hphase
    intro created hfuture
    have hle := (hcovered created hfuture).1
    exact ⟨hle.trans (Nat.le_succ _), fun heq ↦ absurd hle (by simp only at heq; omega)⟩
  next => cases hphase

theorem Inv.step (h : s.Inv) {op : WatchOp} (hcond : s.CreatesInTime op)
    (hstep : s.step op = some t) : t.Inv := by
  have happend : ∀ (publisher : Publisher), s.WakeupPending →
      { s with publishers := s.publishers ++ [publisher] }.WakeupPending := by
    rintro publisher ⟨p, hp, hpending⟩
    exact ⟨p, List.mem_append_left _ hp, hpending⟩
  cases op with
  | waitForResolved ts =>
    cases hstep
    intro waiter hwaiter
    rcases List.mem_append.mp hwaiter with hold | hnew
    · exact (h waiter hold).of_same rfl rfl id
    · obtain rfl := List.mem_singleton.mp hnew
      intro created hfuture
      cases hfuture
  | publish event | publishEmpty txId commitTs =>
    cases hstep
    exact fun waiter hwaiter ↦ (h waiter hwaiter).of_same rfl rfl (happend _)
  | waiter index =>
    obtain ⟨waiter, hwaiter, hstep⟩ := Option.bind_eq_some_iff.mp hstep
    exact h.waiterStep hwaiter hcond hstep
  | publisher index =>
    obtain ⟨publisher, hpublisher, hstep⟩ := Option.bind_eq_some_iff.mp hstep
    exact h.publisherStep hpublisher hstep
  | subscribe | unsubscribe =>
    cases hstep
    exact fun waiter hwaiter ↦ (h waiter hwaiter).of_same rfl rfl id

/-- In a run in which every future is created in time, no wakeup is lost. -/
theorem noLostWakeup_along (initialResolved : ℕ) {ops : List WatchOp}
    (hmeet : StepsMeet step CreatesInTime (initial initialResolved) ops) :
    Along step NoLostWakeup (initial initialResolved) ops := by
  apply StepsMeet.along _ (fun _ ↦ Inv.noLostWakeup) _ hmeet
  · exact fun _ _ _ h hcond hstep ↦ h.step hcond hstep
  · exact fun waiter hwaiter ↦ by cases hwaiter

def wokenByCommit : List WatchOp :=
  [.waitForResolved 1, .waiter 0, .waiter 0, .waiter 0, .publishEmpty 7 1, .publisher 0,
    .publisher 0, .waiter 0, .waiter 0]

theorem noLostWakeup_along_woken :
    StepsMeet step CreatesInTime (initial 0) wokenByCommit ∧
      Along step NoLostWakeup (initial 0) wokenByCommit ∧
        (run step (initial 0) wokenByCommit).map (·.waiters) = some [⟨1, .returned 1⟩] := by
  have hmeet : StepsMeet step CreatesInTime (initial 0) wokenByCommit := by decide
  exact ⟨hmeet, noLostWakeup_along 0 hmeet, by decide⟩

/-- The commit resolves, and its notification is sent, between the load of the
watermark and the creation of the future. -/
def missedCommit : List WatchOp :=
  [.waitForResolved 1, .waiter 0, .publishEmpty 7 1, .publisher 0, .publisher 0, .waiter 0,
    .waiter 0]

/-- The waiter is left suspended although its timestamp has resolved and no
publish is under way any more. -/
theorem wakeup_lost :
    ∃ s, run step (initial 0) missedCommit = some s ∧
      (∀ p ∈ s.publishers, p.phase = .done) ∧ ¬s.WakeupPending ∧
        s.waiters = [⟨1, .suspended s.watcher.notified⟩] ∧ 1 ≤ s.watcher.resolved ∧
          ¬s.NoLostWakeup := by
  refine ⟨_, rfl, by decide, by decide, rfl, by decide, fun h ↦ ?_⟩
  have hlow := h (by decide) ⟨1, .suspended 1⟩ (.head _) rfl
  exact absurd hlow (by decide)

end Watch

end HatP
