import Mathlib.Data.List.Basic

/-!
# Runs of a labelled step function

A system is a partial step function: `step s a` is the state after the atomic
step `a`, or `none` when `a` is not enabled in `s`.  A schedule is a list of
steps.  The rules below turn facts about one step into facts about every state
that a schedule passes through.
-/

namespace Transition

variable {σ α : Type*}

/-- The state a schedule leads to, or `none` when one of its steps is not
enabled. -/
def run (step : σ → α → Option σ) : σ → List α → Option σ
  | s, [] => some s
  | s, a :: as => (step s a).bind fun t ↦ run step t as

/-- Every step that the schedule takes is taken in a state meeting `cond`. -/
def StepsMeet (step : σ → α → Option σ) (cond : σ → α → Prop) : σ → List α → Prop
  | _, [] => True
  | s, a :: as => ∀ t, step s a = some t → cond s a ∧ StepsMeet step cond t as

/-- The property `P` holds in every state that the schedule passes through. -/
def Along (step : σ → α → Option σ) (P : σ → Prop) : σ → List α → Prop
  | s, [] => P s
  | s, a :: as => P s ∧ ∀ t, step s a = some t → Along step P t as

variable {step : σ → α → Option σ} {cond : σ → α → Prop} {I P : σ → Prop} {s : σ} {as : List α}

@[simp] theorem run_nil (s : σ) : run step s [] = some s := rfl

theorem run_cons_eq_some {u : σ} {a : α} :
    run step s (a :: as) = some u ↔ ∃ t, step s a = some t ∧ run step t as = some u := by
  simp [run, Option.bind_eq_some_iff]

theorem run_append_eq_some {u : σ} {bs : List α} :
    run step s (as ++ bs) = some u ↔ ∃ t, run step s as = some t ∧ run step t bs = some u := by
  induction as generalizing s with
  | nil => simp
  | cons a as ih =>
    simp only [List.cons_append, run_cons_eq_some, ih]
    constructor
    · rintro ⟨t, hstep, v, hv, hu⟩
      exact ⟨v, ⟨t, hstep, hv⟩, hu⟩
    · rintro ⟨v, ⟨t, hstep, hv⟩, hu⟩
      exact ⟨t, hstep, v, hv, hu⟩

/-- For a concrete schedule the conditions of its steps can be evaluated. -/
instance decidableStepsMeet [∀ s a, Decidable (cond s a)] :
    ∀ s as, Decidable (StepsMeet step cond s as)
  | _, [] => isTrue trivial
  | s, a :: as =>
    match h : step s a with
    | none => isTrue fun _ ht ↦ nomatch h.symm.trans ht
    | some t =>
      have := decidableStepsMeet t as
      decidable_of_iff (cond s a ∧ StepsMeet step cond t as)
        ⟨fun hmeet _ hu ↦ Option.some.inj (h.symm.trans hu) ▸ hmeet, fun hmeet ↦ hmeet t h⟩

instance decidableAlong [∀ s, Decidable (P s)] : ∀ s as, Decidable (Along step P s as)
  | s, [] => inferInstanceAs (Decidable (P s))
  | s, a :: as =>
    match h : step s a with
    | none =>
      decidable_of_iff (P s)
        ⟨fun hs ↦ ⟨hs, fun _ ht ↦ nomatch h.symm.trans ht⟩, And.left⟩
    | some t =>
      have : Decidable (Along step P t as) := decidableAlong t as
      decidable_of_iff (P s ∧ Along step P t as)
        ⟨fun hs ↦ ⟨hs.1, fun _ hu ↦ Option.some.inj (h.symm.trans hu) ▸ hs.2⟩,
          fun hs ↦ ⟨hs.1, hs.2 t h⟩⟩

theorem Along.head (h : Along step P s as) : P s := by
  cases as with
  | nil => exact h
  | cons a as => exact h.1

theorem along_iff :
    Along step P s as ↔ ∀ bs t, bs <+: as → run step s bs = some t → P t := by
  induction as generalizing s with
  | nil =>
    constructor
    · intro h bs t hbs ht
      obtain rfl := List.prefix_nil.mp hbs
      cases ht
      exact h
    · exact fun h ↦ h [] s List.prefix_rfl rfl
  | cons a as ih =>
    constructor
    · rintro ⟨hs, hrest⟩ bs t hbs ht
      cases bs with
      | nil =>
        cases ht
        exact hs
      | cons b bs =>
        obtain ⟨rfl, htail⟩ := List.cons_prefix_cons.mp hbs
        obtain ⟨u, hu, ht⟩ := run_cons_eq_some.mp ht
        exact ih.mp (hrest u hu) bs t htail ht
    · intro h
      refine ⟨h [] s (List.nil_prefix) rfl, fun t ht ↦ ih.mpr ?_⟩
      intro bs u hbs hu
      exact h (a :: bs) u (List.cons_prefix_cons.mpr ⟨rfl, hbs⟩)
        (run_cons_eq_some.mpr ⟨t, ht, hu⟩)

theorem StepsMeet.run_invariant {u : σ} (hpres : ∀ s a t, I s → cond s a → step s a = some t → I t)
    (hmeet : StepsMeet step cond s as) (hs : I s) (hrun : run step s as = some u) :
    I u := by
  induction as generalizing s with
  | nil =>
    cases hrun
    exact hs
  | cons a as ih =>
    obtain ⟨t, hstep, hrun⟩ := run_cons_eq_some.mp hrun
    obtain ⟨hcond, hmeet⟩ := hmeet t hstep
    exact ih hmeet (hpres s a t hs hcond hstep) hrun

/-- Invariant rule for every state along a schedule whose steps meet `cond`. -/
theorem StepsMeet.along (hpres : ∀ s a t, I s → cond s a → step s a = some t → I t)
    (hsafe : ∀ s, I s → P s) (hs : I s) (hmeet : StepsMeet step cond s as) : Along step P s as := by
  induction as generalizing s with
  | nil => exact hsafe s hs
  | cons a as ih =>
    refine ⟨hsafe s hs, fun t ht ↦ ?_⟩
    exact ih (hpres s a t hs (hmeet t ht).1 ht) (hmeet t ht).2

/-- Invariant rule for a schedule that stays in `P`: a step may use `P` before
and after it. -/
theorem Along.invariant (hpres : ∀ s a t, I s → P s → P t → step s a = some t → I t) (hs : I s)
    (h : Along step P s as) : Along step I s as := by
  induction as generalizing s with
  | nil => exact hs
  | cons a as ih =>
    refine ⟨hs, fun t ht ↦ ?_⟩
    exact ih (hpres s a t hs h.1 (h.2 t ht).head ht) (h.2 t ht)

theorem Along.imp {Q : σ → Prop} (himp : ∀ s, P s → Q s)
    (h : Along step P s as) : Along step Q s as := by
  induction as generalizing s with
  | nil => exact himp s h
  | cons a as ih => exact ⟨himp s h.1, fun t ht ↦ ih (h.2 t ht)⟩

/-- When a step outside `cond` always leads out of `P`, the schedules that stay
in `P` are exactly the ones whose steps meet `cond`. -/
theorem along_iff_stepsMeet (hpres : ∀ s a t, I s → cond s a → step s a = some t → I t)
    (hsafe : ∀ s, I s → P s)
    (hexact : ∀ s a t, I s → step s a = some t → P t → cond s a) (hs : I s) :
    Along step P s as ↔ StepsMeet step cond s as := by
  refine ⟨fun h ↦ ?_, StepsMeet.along hpres hsafe hs⟩
  induction as generalizing s with
  | nil => trivial
  | cons a as ih =>
    intro t ht
    have hcond := hexact s a t hs ht (h.2 t ht).head
    exact ⟨hcond, ih (hpres s a t hs hcond ht) (h.2 t ht)⟩

/-- A measure that every step lowers bounds the length of a schedule. -/
theorem length_add_le_of_run {t : σ} {measure : σ → ℕ}
    (hlower : ∀ s a t, step s a = some t → measure t < measure s) (hrun : run step s as = some t) :
    as.length + measure t ≤ measure s := by
  induction as generalizing s with
  | nil =>
    cases hrun
    simp
  | cons a as ih =>
    obtain ⟨u, hstep, hrun⟩ := run_cons_eq_some.mp hrun
    have hlt := hlower s a u hstep
    have hle := ih hrun
    rw [List.length_cons]
    omega

theorem StepsMeet.and_of_forall_mem {q : α → Prop}
    (hmeet : StepsMeet step cond s as) (hall : ∀ a ∈ as, q a) :
    StepsMeet step (fun s a ↦ cond s a ∧ q a) s as := by
  induction as generalizing s with
  | nil => trivial
  | cons a as ih =>
    intro t ht
    obtain ⟨hcond, hrest⟩ := hmeet t ht
    exact ⟨⟨hcond, hall a (.head _)⟩,
      ih hrest fun b hb ↦ hall b (List.mem_cons_of_mem a hb)⟩

theorem stepsMeet_true (s : σ) (as : List α) : StepsMeet step (fun _ _ ↦ True) s as := by
  induction as generalizing s with
  | nil => trivial
  | cons a as ih => exact fun t _ ↦ ⟨trivial, ih t⟩

theorem run_map {β : Type*} {step' : σ → β → Option σ} {f : α → β}
    (h : ∀ s a, step' s (f a) = step s a) {t : σ}
    (hrun : run step s as = some t) : run step' s (as.map f) = some t := by
  induction as generalizing s with
  | nil => exact hrun
  | cons a as ih =>
    obtain ⟨u, hstep, hrest⟩ := run_cons_eq_some.mp hrun
    exact run_cons_eq_some.mpr ⟨u, (h s a).trans hstep, ih hrest⟩

theorem stepsMeet_congr {cond' : σ → α → Prop} (h : ∀ s a, cond s a ↔ cond' s a) :
    StepsMeet step cond s as ↔ StepsMeet step cond' s as := by
  induction as generalizing s with
  | nil => rfl
  | cons a as ih => exact forall₂_congr fun _ _ ↦ and_congr (h s a) ih

end Transition
