import Mathlib.Data.List.Basic
import Mathlib.Logic.Relation
import Mathlib.Algebra.Order.BigOperators.Group.List
import Mathlib.Algebra.Order.Ring.Nat

/-!
# Reachability by a worklist

The search pops a vertex from a stack, stops when it is the target, and
otherwise pushes the successors of a vertex that was not seen before.  Started
from the successors of the target it decides whether the target lies on a
cycle.
-/

namespace Worklist

variable {fuel : ℕ}

section Search

variable {α : Type*} [DecidableEq α]

/-- Every call pops one vertex, so the fuel bounds the number of pops. -/
def search (next : α → List α) (target : α) : ℕ → List α → List α → Bool
  | 0, _, _ => false
  | _ + 1, _, [] => false
  | fuel + 1, visited, x :: stack =>
    if x = target then true
    else if x ∈ visited then search next target fuel visited stack
    else search next target fuel (x :: visited) ((next x).reverse ++ stack)

def unexplored (next : α → List α) (vertices visited : List α) : ℕ :=
  ((vertices.filter fun v ↦ v ∉ visited).map fun v ↦ (next v).length).sum

variable {next : α → List α} {target : α}

theorem search_sound {visited stack : List α} (h : search next target fuel visited stack = true) :
    ∃ x ∈ stack, Relation.ReflTransGen (fun a b ↦ b ∈ next a) x target := by
  induction fuel generalizing visited stack with
  | zero => simp [search] at h
  | succ fuel ih =>
    cases stack with
    | nil => simp [search] at h
    | cons x stack =>
      rw [search] at h
      by_cases hx : x = target
      · exact ⟨x, .head _, hx ▸ .refl⟩
      rw [if_neg hx] at h
      by_cases hmem : x ∈ visited
      · rw [if_pos hmem] at h
        obtain ⟨y, hy, hpath⟩ := ih h
        exact ⟨y, List.mem_cons_of_mem x hy, hpath⟩
      · rw [if_neg hmem] at h
        obtain ⟨y, hy, hpath⟩ := ih h
        cases List.mem_append.mp hy with
        | inl hnext =>
          exact ⟨x, .head _, .head (List.mem_reverse.mp hnext) hpath⟩
        | inr hstack => exact ⟨y, List.mem_cons_of_mem x hstack, hpath⟩

theorem unexplored_cons_le (next : α → List α) (vertices visited : List α) (x : α) :
    unexplored next vertices (x :: visited) ≤ unexplored next vertices visited := by
  have hsub : (vertices.filter fun v ↦ v ∉ x :: visited).Sublist
      (vertices.filter fun v ↦ v ∉ visited) := by
    apply List.monotone_filter_right vertices
    intro v hv
    simp only [List.mem_cons, not_or, decide_eq_true_eq] at hv ⊢
    exact hv.2
  exact (hsub.map fun v ↦ (next v).length).sum_le_sum fun _ _ ↦ Nat.zero_le _

theorem unexplored_cons_add_le {vertices visited : List α} {x : α}
    (hx : x ∈ vertices) (hvisited : x ∉ visited) :
    unexplored next vertices (x :: visited) + (next x).length ≤
      unexplored next vertices visited := by
  induction vertices with
  | nil => cases hx
  | cons v vertices ih =>
    by_cases hvx : v = x
    · subst hvx
      have hmono := unexplored_cons_le next vertices visited v
      simp only [unexplored, List.filter_cons, hvisited] at hmono ⊢
      simp at hmono ⊢
      omega
    · have hmem : x ∈ vertices := (List.mem_cons.mp hx).resolve_left (Ne.symm hvx)
      have hrest := ih hmem
      simp only [unexplored, List.filter_cons] at hrest ⊢
      by_cases hv : v ∈ visited <;> simp [hv, hvx] at hrest ⊢ <;> omega

end Search

section Explored

variable {α : Type*} {next : α → List α} {target : α} {visited stack : List α} {x : α}

def Explored (next : α → List α) (target : α) (visited stack : List α) : Prop :=
  ∀ v ∈ visited, v ≠ target → ∀ w ∈ next v, w ∈ stack ∨ w ∈ visited ∧ w ≠ target

theorem Explored.not_reaches (h : Explored next target visited []) (hx : x ∈ visited)
    (hne : x ≠ target) :
    ¬Relation.ReflTransGen (fun a b ↦ b ∈ next a) x target := by
  intro hpath
  induction hpath using Relation.ReflTransGen.head_induction_on with
  | refl => exact hne rfl
  | head hstep _ ih =>
    have hnext := (h _ hx hne _ hstep).resolve_left List.not_mem_nil
    exact ih hnext.1 hnext.2

theorem pending_skip {w : α} (hmem : x ∈ visited) (hne : x ≠ target)
    (h : w ∈ x :: stack ∨ w ∈ visited ∧ w ≠ target) : w ∈ stack ∨ w ∈ visited ∧ w ≠ target := by
  rcases h with hstack | hvisited
  · cases List.mem_cons.mp hstack with
    | inl heq => exact .inr (heq ▸ ⟨hmem, hne⟩)
    | inr htail => exact .inl htail
  · exact .inr hvisited

theorem pending_expand {w : α} (succs : List α) (hne : x ≠ target)
    (h : w ∈ x :: stack ∨ w ∈ visited ∧ w ≠ target) :
    w ∈ succs ++ stack ∨ w ∈ x :: visited ∧ w ≠ target := by
  rcases h with hstack | hvisited
  · cases List.mem_cons.mp hstack with
    | inl heq =>
      subst heq
      exact .inr ⟨.head _, hne⟩
    | inr htail => exact .inl (List.mem_append_right _ htail)
  · exact .inr ⟨List.mem_cons_of_mem x hvisited.1, hvisited.2⟩

theorem Explored.expand (h : Explored next target visited (x :: stack)) (hne : x ≠ target) :
    Explored next target (x :: visited) ((next x).reverse ++ stack) := by
  intro v hv hvt w hw
  cases List.mem_cons.mp hv with
  | inl heq =>
    subst heq
    exact .inl (List.mem_append_left stack (List.mem_reverse.mpr hw))
  | inr hold => exact pending_expand _ hne (h v hold hvt w hw)

end Explored

variable {α : Type*} [DecidableEq α] {next : α → List α} {target : α} {vertices visited : List α}

theorem unexplored_expand {x : α}
    (hvertices : ∀ v, v ∉ vertices → next v = []) (hmem : x ∉ visited) :
    unexplored next vertices (x :: visited) + (next x).length ≤
      unexplored next vertices visited := by
  by_cases hx : x ∈ vertices
  · exact unexplored_cons_add_le hx hmem
  · rw [hvertices x hx]
    exact unexplored_cons_le next vertices visited x

/-- A search with enough fuel that does not find the target has looked at
everything that the stack leads to. -/
theorem search_complete (hvertices : ∀ v, v ∉ vertices → next v = [])
    {stack : List α} (hfuel : stack.length + unexplored next vertices visited ≤ fuel)
    (hinv : Explored next target visited stack)
    (h : search next target fuel visited stack = false) :
    ∀ x, x ∈ stack ∨ x ∈ visited ∧ x ≠ target →
      ¬Relation.ReflTransGen (fun a b ↦ b ∈ next a) x target := by
  -- the induction follows the pops; `Explored` is what each of them keeps
  induction fuel generalizing visited stack with
  | zero =>
    have hnil : stack = [] := List.length_eq_zero_iff.mp (by omega)
    subst hnil
    intro x hx
    obtain ⟨hmem, hne⟩ := hx.resolve_left List.not_mem_nil
    exact hinv.not_reaches hmem hne
  | succ fuel ih =>
    cases stack with
    | nil =>
      intro x hx
      obtain ⟨hmem, hne⟩ := hx.resolve_left List.not_mem_nil
      exact hinv.not_reaches hmem hne
    | cons y stack =>
      rw [search] at h
      have hne : y ≠ target := by
        intro hy
        simp [hy] at h
      rw [if_neg hne] at h
      rw [List.length_cons] at hfuel
      intro x hx
      by_cases hmem : y ∈ visited
      · rw [if_pos hmem] at h
        have hskip : Explored next target visited stack :=
          fun v hv hvt w hw ↦ pending_skip hmem hne (hinv v hv hvt w hw)
        exact ih (by omega) hskip h x (pending_skip hmem hne hx)
      · rw [if_neg hmem] at h
        have hbudget := unexplored_expand hvertices hmem
        have hlen : ((next y).reverse ++ stack).length +
            unexplored next vertices (y :: visited) ≤ fuel := by
          rw [List.length_append, List.length_reverse]
          omega
        exact ih hlen (hinv.expand hne) h x (pending_expand _ hne hx)

/-- The search from the successors of a vertex decides whether the vertex is
on a cycle. -/
theorem search_eq_true_iff (hvertices : ∀ v, v ∉ vertices → next v = [])
    (hfuel : (next target).length + unexplored next vertices [target] ≤ fuel) :
    search next target fuel [target] (next target).reverse = true ↔
      Relation.TransGen (fun a b ↦ b ∈ next a) target target := by
  rw [Relation.TransGen.head'_iff]
  constructor
  · intro h
    obtain ⟨x, hx, hpath⟩ := search_sound h
    exact ⟨x, List.mem_reverse.mp hx, hpath⟩
  · rintro ⟨x, hx, hpath⟩
    by_contra hfalse
    have hinv : Explored next target [target] (next target).reverse := by
      intro v hv hne
      exact absurd (List.mem_singleton.mp hv) hne
    have hlen : (next target).reverse.length + unexplored next vertices [target] ≤ fuel := by
      rwa [List.length_reverse]
    exact search_complete hvertices hlen hinv (Bool.eq_false_iff.mpr hfalse) x
      (.inl (List.mem_reverse.mpr hx)) hpath

/-! ## The loop without an answer of its own -/

/-- The same loop cut off after a number of pops: `none` says that it was still
running. -/
def loop (next : α → List α) (target : α) : ℕ → List α → List α → Option Bool
  | _, _, [] => some false
  | 0, _, _ :: _ => none
  | fuel + 1, visited, x :: stack =>
    if x = target then some true
    else if x ∈ visited then loop next target fuel visited stack
    else loop next target fuel (x :: visited) ((next x).reverse ++ stack)

/-- With as many pops as there are successors to push, the loop has ended, and
the search says how. -/
theorem loop_eq_search (hvertices : ∀ v, v ∉ vertices → next v = []) {stack : List α}
    (hfuel : stack.length + unexplored next vertices visited ≤ fuel) (bound : ℕ)
    (hbound : fuel ≤ bound) :
    loop next target bound visited stack = some (search next target fuel visited stack) := by
  induction fuel generalizing visited stack bound with
  | zero =>
    have hnil : stack = [] := List.length_eq_zero_iff.mp (by omega)
    subst hnil
    cases bound <;> rfl
  | succ fuel ih =>
    cases stack with
    | nil => cases bound <;> rfl
    | cons x stack =>
      rw [List.length_cons] at hfuel
      obtain ⟨bound, rfl⟩ := Nat.exists_eq_succ_of_ne_zero (by omega : bound ≠ 0)
      rw [loop, search]
      by_cases hx : x = target
      · rw [if_pos hx, if_pos hx]
      rw [if_neg hx, if_neg hx]
      by_cases hmem : x ∈ visited
      · rw [if_pos hmem, if_pos hmem]
        exact ih (by omega) bound (by omega)
      · rw [if_neg hmem, if_neg hmem]
        have hbudget := unexplored_expand hvertices hmem
        apply ih _ bound (by omega)
        rw [List.length_append, List.length_reverse]
        omega

end Worklist
