import Mathlib.Data.List.Pairwise
import Mathlib.Logic.Function.Basic
import Mathlib.Order.Basic
import HatP.Lib.Run

/-!
# Compare-exchange loops on one cell

Any number of threads update one atomic cell.  An operation loads the cell,
computes what it wants to store from the value it saw, and tries to exchange
that value for the new one.  A failed attempt, be it that the cell has changed
or for no reason at all, gives it the value the cell has now and it starts over;
when it wants to store nothing it ends.  Operations take effect one at a time:
`exists_replays` reads them off the history in the order they ended.
-/

namespace CompareExchange

variable {τ ω ν : Type*}

/-- Where a thread stands: it has called an operation, or will try to exchange
the value it saw last. -/
inductive Phase (ω ν : Type*)
  | idle
  | called (op : ω)
  | looping (op : ω) (current : ν)

inductive Event (τ ω ν : Type*)
  | started (thread : τ) (op : ω)
  | finished (thread : τ) (op : ω) (seen : ν)

structure State (τ ω ν : Type*) where
  cell : ν
  phase : τ → Phase ω ν
  history : List (Event τ ω ν)

/-- The atomic actions; an exchange may be spurious. -/
inductive Move (τ ω : Type*)
  | call (thread : τ) (op : ω)
  | load (thread : τ)
  | exchange (thread : τ) (spurious : Bool)

/-- What an operation wants to store over a value, if anything, and what its
thread goes on with after it. -/
structure Loops (ω ν : Type*) where
  next : ω → ν → Option ν
  follow : ω → ν → Option ω

variable [DecidableEq τ] [DecidableEq ν]

namespace State

def start (s : State τ ω ν) (thread : τ) (op : ω) : State τ ω ν :=
  { s with
    phase := Function.update s.phase thread (.called op)
    history := s.history ++ [.started thread op] }

def finish (loops : Loops ω ν) (s : State τ ω ν) (thread : τ) (op : ω) (seen cell : ν) :
    State τ ω ν :=
  let ended : State τ ω ν :=
    ⟨cell, Function.update s.phase thread .idle, s.history ++ [.finished thread op seen]⟩
  match loops.follow op seen with
  | some after => ended.start thread after
  | none => ended

def observe (loops : Loops ω ν) (s : State τ ω ν) (thread : τ) (op : ω) : State τ ω ν :=
  if (loops.next op s.cell).isSome then
    { s with phase := Function.update s.phase thread (.looping op s.cell) }
  else s.finish loops thread op s.cell s.cell

end State

def step (loops : Loops ω ν) (s : State τ ω ν) : Move τ ω → Option (State τ ω ν)
  | .call thread op =>
    match s.phase thread with
    | .idle => some (s.start thread op)
    | _ => none
  | .load thread =>
    match s.phase thread with
    | .called op => some (s.observe loops thread op)
    | _ => none
  | .exchange thread spurious =>
    match s.phase thread with
    | .looping op current =>
      match loops.next op current with
      | some new =>
        if s.cell = current ∧ spurious = false then
          some (s.finish loops thread op current new)
        else some (s.observe loops thread op)
      | none => none
    | _ => none

/-! ## One operation at a time -/

omit [DecidableEq τ] [DecidableEq ν]

def Loops.applied (loops : Loops ω ν) (op : ω) (seen : ν) : ν := (loops.next op seen).getD seen

def outcomes (history : List (Event τ ω ν)) : List (ω × ν) :=
  history.filterMap fun
    | .started _ _ => none
    | .finished _ op seen => some (op, seen)

/-- Taken one after the other, the operations see what they saw and lead from
the one value of the cell to the other. -/
def Replays (loops : Loops ω ν) : ν → List (ω × ν) → ν → Prop
  | a, [], b => a = b
  | a, (op, seen) :: rest, b => seen = a ∧ Replays loops (loops.applied op a) rest b

variable {loops : Loops ω ν} {a b c : ν} {ops rest : List (ω × ν)}

theorem replays_append :
    Replays loops a (ops ++ rest) c ↔ ∃ b, Replays loops a ops b ∧ Replays loops b rest c := by
  induction ops generalizing a with
  | nil => exact ⟨fun h ↦ ⟨a, rfl, h⟩, fun ⟨_, hab, h⟩ ↦ hab ▸ h⟩
  | cons o ops ih =>
    constructor
    · rintro ⟨hseen, hops⟩
      obtain ⟨b, hops, hrest⟩ := ih.mp hops
      exact ⟨b, ⟨hseen, hops⟩, hrest⟩
    · rintro ⟨b, ⟨hseen, hops⟩, hrest⟩
      exact ⟨hseen, ih.mpr ⟨b, hops, hrest⟩⟩

@[simp] theorem outcomes_append (history later : List (Event τ ω ν)) :
    outcomes (history ++ later) = outcomes history ++ outcomes later :=
  List.filterMap_append

section Moves

variable [DecidableEq τ]

theorem outcomes_start (s : State τ ω ν) (thread : τ) (op : ω) :
    outcomes (s.start thread op).history = outcomes s.history := by
  rw [State.start, outcomes_append]
  exact List.append_nil _

theorem finish_eq (loops : Loops ω ν) (s : State τ ω ν) (thread : τ) (op : ω) (seen cell : ν) :
    (s.finish loops thread op seen cell).cell = cell ∧
      outcomes (s.finish loops thread op seen cell).history =
        outcomes s.history ++ [(op, seen)] := by
  rw [State.finish]
  cases loops.follow op seen with
  | none => exact ⟨rfl, outcomes_append _ _⟩
  | some after => exact ⟨rfl, (outcomes_start _ thread after).trans (outcomes_append _ _)⟩

theorem observe_replays (s : State τ ω ν) (thread : τ) (op : ω) :
    ∃ ops, outcomes (s.observe loops thread op).history = outcomes s.history ++ ops ∧
      Replays loops s.cell ops (s.observe loops thread op).cell := by
  rw [State.observe]
  split
  · exact ⟨[], (List.append_nil _).symm, rfl⟩
  · rename_i hstop
    obtain ⟨hcell, houtcomes⟩ := finish_eq loops s thread op s.cell s.cell
    refine ⟨_, houtcomes, rfl, ?_⟩
    rw [hcell, Loops.applied, Option.not_isSome_iff_eq_none.mp hstop]
    rfl

theorem exists_replays_step [DecidableEq ν] {s t : State τ ω ν} {move : Move τ ω}
    (h : step loops s move = some t) :
    ∃ ops, outcomes t.history = outcomes s.history ++ ops ∧ Replays loops s.cell ops t.cell := by
  cases move with
  | call thread op =>
    simp only [step] at h
    split at h
    · cases h
      exact ⟨[], by rw [outcomes_start, List.append_nil], rfl⟩
    · cases h
  | load thread =>
    simp only [step] at h
    split at h
    · cases h
      exact observe_replays s thread _
    · cases h
  | exchange thread spurious =>
    simp only [step] at h
    split at h
    · rename_i op current _
      split at h
      · rename_i new hnew
        split at h
        · rename_i hswap
          cases h
          obtain ⟨hcell, houtcomes⟩ := finish_eq loops s thread op current new
          refine ⟨_, houtcomes, hswap.1.symm, ?_⟩
          rw [hcell, hswap.1, Loops.applied, hnew]
          rfl
        · cases h
          exact observe_replays s thread op
      · cases h
    · cases h

end Moves

/-- Over a schedule of any actions that end operations one at a time, the
operations took effect one at a time, in the order in which they ended. -/
theorem exists_replays {α : Type*} {act : State τ ω ν → α → Option (State τ ω ν)}
    (hact : ∀ s a t, act s a = some t →
      ∃ ops, outcomes t.history = outcomes s.history ++ ops ∧ Replays loops s.cell ops t.cell)
    {s t : State τ ω ν} {as : List α} (h : Transition.run act s as = some t) :
    ∃ ops, outcomes t.history = outcomes s.history ++ ops ∧ Replays loops s.cell ops t.cell := by
  induction as generalizing s with
  | nil =>
    cases h
    exact ⟨[], (List.append_nil _).symm, rfl⟩
  | cons a as ih =>
    obtain ⟨u, hstep, hrun⟩ := Transition.run_cons_eq_some.mp h
    obtain ⟨first, hfirst, hreplay⟩ := hact s a u hstep
    obtain ⟨later, hlater, hreplays⟩ := ih hrun
    refine ⟨first ++ later, ?_, replays_append.mpr ⟨u.cell, hreplay, hreplays⟩⟩
    rw [hlater, hfirst, List.append_assoc]

/-! ## Operations that only raise the cell -/

section Order

variable [Preorder ν]

theorem Replays.le (h : Replays loops a ops b)
    (hraise : ∀ o ∈ ops, o.2 ≤ loops.applied o.1 o.2) : a ≤ b := by
  induction ops generalizing a with
  | nil => exact le_of_eq h
  | cons o ops ih =>
    obtain ⟨rfl, hrest⟩ := h
    exact (hraise o (.head _)).trans
      (ih hrest fun p hp ↦ hraise p (.tail _ hp))

theorem Replays.pairwise (h : Replays loops a ops b)
    (hraise : ∀ o ∈ ops, o.2 ≤ loops.applied o.1 o.2) :
    ops.Pairwise fun o p ↦ loops.applied o.1 o.2 ≤ p.2 := by
  induction ops generalizing a with
  | nil => exact .nil
  | cons o ops ih =>
    obtain ⟨rfl, hrest⟩ := h
    have hraiseLater : ∀ p ∈ ops, p.2 ≤ loops.applied p.1 p.2 :=
      fun p hp ↦ hraise p (.tail _ hp)
    refine List.pairwise_cons.mpr ⟨fun p hp ↦ ?_, ih hrest hraiseLater⟩
    obtain ⟨before, after, rfl⟩ := List.append_of_mem hp
    obtain ⟨mid, hbefore, hmid⟩ := replays_append.mp hrest
    rw [hmid.1]
    exact hbefore.le fun q hq ↦ hraiseLater q (List.mem_append_left _ hq)

end Order

end CompareExchange
