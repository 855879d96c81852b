import Mathlib.Logic.Relation
import HatP.Lib.Run

/-!
# A program and its environment

A sequential program takes one atomic action after the other on a state that its
environment changes between them.  What the program returns is then a matter of
what the environment may do: `Meets rely post p s` says that `p`, started at `s`,
ends as `post` says when every step of the environment is one of `rely`.
-/

namespace Interference

open Relation

universe u v w

/-- A program has ended, or changes the state and goes on with what it has seen
there. -/
inductive Program (σ : Type u) (ρ : Type v)
  | done (result : ρ)
  | act (update : σ → σ) (next : σ → Program σ ρ)

namespace Program

variable {σ : Type u} {ρ : Type v} {α : Type v}

def bind : Program σ α → (α → Program σ ρ) → Program σ ρ
  | .done a, f => f a
  | .act update next, f => .act update fun s ↦ (next s).bind f

instance : Monad (Program σ) where
  pure := .done
  bind := bind

def access (update : σ → σ) (view : σ → α) : Program σ α := .act update fun s ↦ .done (view s)

def read (view : σ → α) : Program σ α := access (fun s ↦ s) view

def finish : Program σ ρ → σ → ρ
  | .done r, _ => r
  | .act update next, s => (next s).finish (update s)

def exec : Program σ ρ → σ → σ
  | .done _, s => s
  | .act update next, s => (next s).exec (update s)

theorem exec_read_bind (view : σ → α) (next : α → Program σ ρ) (s : σ) :
    (read view >>= next).exec s = (next (view s)).exec s :=
  rfl

def Keeps (J : σ → Prop) : Program σ ρ → Prop
  | .done _ => True
  | .act update next => ∀ s, J s → J (update s) ∧ (next s).Keeps J

/-- The program ends in `post` when its environment keeps to `rely`. -/
def Meets (rely : σ → σ → Prop) (post : ρ → σ → Prop) : Program σ ρ → σ → Prop
  | .done r, s => post r s
  | .act update next, s => ∀ t, ReflTransGen rely s t → (next t).Meets rely post (update t)

variable {rely : σ → σ → Prop} {post : ρ → σ → Prop} {s t : σ}

/-! ## Rules -/

theorem Meets.bind {p : Program σ α} {f : α → Program σ ρ}
    (h : p.Meets rely (fun a t ↦ (f a).Meets rely post t) s) : (p >>= f).Meets rely post s := by
  induction p generalizing s with
  | done a => exact h
  | act update next ih => exact fun t hst ↦ ih t (h t hst)

theorem meets_pure {r : ρ} (h : post r s) : (pure r : Program σ ρ).Meets rely post s := h

theorem meets_access {update : σ → σ} {view : σ → ρ}
    (h : ∀ t, ReflTransGen rely s t → post (view t) (update t)) :
    (access update view).Meets rely post s := h

theorem meets_read {view : σ → ρ} (h : ∀ t, ReflTransGen rely s t → post (view t) t) :
    (read view).Meets rely post s := h

theorem Meets.mono {post' : ρ → σ → Prop} {p : Program σ ρ} (h : p.Meets rely post s)
    (himp : ∀ r t, post r t → post' r t) : p.Meets rely post' s := by
  induction p generalizing s with
  | done r => exact himp r s h
  | act update next ih => exact fun t hst ↦ ih t (h t hst)

theorem stable_of_step {I : σ → Prop} (hstep : ∀ s t, I s → rely s t → I t) (hs : I s)
    (hst : ReflTransGen rely s t) : I t := by
  induction hst with
  | refl => exact hs
  | tail _ hlast ih => exact hstep _ _ ih hlast

/-! ## Invariants of a program -/

section Keeps

variable {J : σ → Prop} {f : α → Program σ ρ}

theorem Keeps.exec {p : Program σ ρ} (h : p.Keeps J) (hs : J s) : J (p.exec s) := by
  induction p generalizing s with
  | done r => exact hs
  | act update next ih => exact ih s (h s hs).2 (h s hs).1

theorem keeps_pure (r : ρ) : (pure r : Program σ ρ).Keeps J := trivial

theorem Keeps.bind {p : Program σ α} (h : p.Keeps J)
    (hf : ∀ a, (f a).Keeps J) : (p >>= f).Keeps J := by
  induction p with
  | done a => exact hf a
  | act update next ih => exact fun s hs ↦ ⟨(h s hs).1, ih s (h s hs).2⟩

/-- What the program has seen, it has seen in a state that meets `J`. -/
theorem keeps_access_bind {update : σ → σ} {view : σ → α}
    (h : ∀ s, J s → J (update s) ∧ (f (view s)).Keeps J) : (access update view >>= f).Keeps J :=
  h

theorem keeps_read_bind {view : σ → α}
    (h : ∀ s, J s → (f (view s)).Keeps J) : (read view >>= f).Keeps J :=
  fun s hs ↦ ⟨hs, h s hs⟩

end Keeps

/-! ## The environment takes its turns -/

theorem Meets.finish {Q : ρ → Prop} {p : Program σ ρ} (h : p.Meets rely (fun r _ ↦ Q r) s) :
    Q (p.finish s) := by
  induction p generalizing s with
  | done r => exact h
  | act update next ih => exact ih s (h s .refl)

end Program

/-- Whose turn it is. -/
inductive Turn (β : Type w)
  | program
  | environment (b : β)

variable {σ : Type u} {ρ : Type v} {β : Type w}

def step (environment : σ → β → Option σ) (st : σ × Program σ ρ) :
    Turn β → Option (σ × Program σ ρ)
  | .program =>
    match st.2 with
    | .done _ => none
    | .act update next => some (update st.1, next st.1)
  | .environment b => (environment st.1 b).map fun t ↦ (t, st.2)

/-- Wherever the turns lead, the program ends in `Q`, if the environment keeps to
`rely` as long as the program has not ended. -/
theorem along_of_meets {environment : σ → β → Option σ}
    {cond : σ × Program σ ρ → Turn β → Prop} {rely : σ → σ → Prop} {Q : ρ → Prop}
    (hrely : ∀ s update next b t, cond (s, .act update next) (.environment b) →
      environment s b = some t → rely s t)
    {s : σ} {p : Program σ ρ} (h : p.Meets rely (fun r _ ↦ Q r) s) {turns : List (Turn β)}
    (hmeet : Transition.StepsMeet (step environment) cond (s, p) turns) :
    Transition.Along (step environment) (fun st ↦ Q (st.2.finish st.1)) (s, p) turns := by
  refine Transition.StepsMeet.along (I := fun st ↦ st.2.Meets rely (fun r _ ↦ Q r) st.1)
    ?_ (fun st hst ↦ hst.finish) h hmeet
  rintro ⟨s, p⟩ turn st' hst hcond hstep
  cases turn with
  | program =>
    cases p with
    | done r => cases hstep
    | act update next =>
      cases hstep
      exact hst s .refl
  | environment b =>
    obtain ⟨t, ht, rfl⟩ := Option.map_eq_some_iff.mp hstep
    cases p with
    | done r => exact hst
    | act update next => exact fun u htu ↦ hst u (.head (hrely s update next b t hcond ht) htu)

end Interference
