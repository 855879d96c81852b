import Mathlib

/-!
# The newest element at or before a point in time

Elements of a set carry a stamp in a linear order.  A reader at time `s` wants
the element with the greatest stamp that is at most `s`.  The lemmas say when
that element survives a change of the set and how list searches find it.
-/

namespace Newest

variable {α T : Type*} [LinearOrder T] {ts : α → T} {S S' : Set α} {s w : T} {a b : α}

/-- `a` is a newest element of `S` among those stamped at or before `s`. -/
def IsNewestAt (ts : α → T) (S : Set α) (s : T) (a : α) : Prop :=
  a ∈ S ∧ ts a ≤ s ∧ ∀ b ∈ S, ts b ≤ s → ts b ≤ ts a

theorem isNewestAt_congr (h : ∀ b, ts b ≤ s → (b ∈ S ↔ b ∈ S')) :
    IsNewestAt ts S s a ↔ IsNewestAt ts S' s a := by
  constructor
  · rintro ⟨ha, hs, hmax⟩
    exact ⟨(h a hs).mp ha, hs, fun b hb hbs ↦ hmax b ((h b hbs).mpr hb) hbs⟩
  · rintro ⟨ha, hs, hmax⟩
    exact ⟨(h a hs).mpr ha, hs, fun b hb hbs ↦ hmax b ((h b hbs).mp hb) hbs⟩

theorem IsNewestAt.ts_eq (ha : IsNewestAt ts S s a) (hb : IsNewestAt ts S s b) : ts a = ts b :=
  le_antisymm (hb.2.2 a ha.1 ha.2.1) (ha.2.2 b hb.1 hb.2.1)

/-- Pruning at `w` drops an element only when a newer one is stamped at or
before `w`; a reader at or after `w` does not notice. -/
theorem isNewestAt_prune (hws : w ≤ s) (hsub : S' ⊆ S)
    (hkeep : ∀ b ∈ S, (∀ c ∈ S, ts b < ts c → w < ts c) → b ∈ S')
    (hnewest : IsNewestAt ts S s a) : IsNewestAt ts S' s a := by
  refine ⟨hkeep a hnewest.1 fun c hc hac ↦ ?_, hnewest.2.1,
    fun b hb hbs ↦ hnewest.2.2 b (hsub hb) hbs⟩
  by_contra hcw
  exact absurd (hnewest.2.2 c hc ((not_lt.mp hcw).trans hws)) (not_le.mpr hac)

section Prune

variable {ts : α → ℕ} {S S' : Set α} {s w : ℕ} {a : α}

/-- With natural stamps every element is covered by one that pruning keeps: the
chain of newer elements below the watermark is finite. -/
theorem exists_kept_ge (hws : w ≤ s)
    (hkeep : ∀ b ∈ S, (∀ c ∈ S, ts b < ts c → w < ts c) → b ∈ S') (ha : a ∈ S) (has : ts a ≤ s) :
    ∃ b ∈ S', ts a ≤ ts b ∧ ts b ≤ s := by
  induction hn : s - ts a using Nat.strong_induction_on generalizing a with
  | _ n ih =>
    by_cases hkept : ∀ c ∈ S, ts a < ts c → w < ts c
    · exact ⟨a, hkeep a ha hkept, le_rfl, has⟩
    · push Not at hkept
      obtain ⟨c, hc, hac, hcw⟩ := hkept
      obtain ⟨b, hb, hcb, hbs⟩ := ih (s - ts c) (by omega) hc (hcw.trans hws) rfl
      exact ⟨b, hb, hac.le.trans hcb, hbs⟩

/-- A reader at or after the watermark sees the same newest element before and
after pruning. -/
theorem isNewestAt_prune_iff (hws : w ≤ s) (hsub : S' ⊆ S)
    (hkeep : ∀ b ∈ S, (∀ c ∈ S, ts b < ts c → w < ts c) → b ∈ S') :
    IsNewestAt ts S s a ↔ IsNewestAt ts S' s a := by
  constructor
  · exact isNewestAt_prune hws hsub hkeep
  · rintro ⟨ha, has, hmax⟩
    refine ⟨hsub ha, has, fun c hc hcs ↦ ?_⟩
    obtain ⟨b, hb, hcb, hbs⟩ := exists_kept_ge hws hkeep hc hcs
    exact hcb.trans (hmax b hb hbs)

theorem isGreatest_prune_iff {t : ℕ} (hsub : S' ⊆ S)
    (hkeep : ∀ b ∈ S, (∀ c ∈ S, ts b < ts c → w < ts c) → b ∈ S') :
    IsGreatest (ts '' S) t ↔ IsGreatest (ts '' S') t := by
  constructor
  · rintro ⟨⟨a, ha, rfl⟩, hmax⟩
    have ha' : a ∈ S' := hkeep a ha fun c hc hac ↦
      absurd (hmax (Set.mem_image_of_mem ts hc)) (not_le.mpr hac)
    exact ⟨Set.mem_image_of_mem ts ha', fun x hx ↦ hmax (Set.image_mono hsub hx)⟩
  · rintro ⟨⟨a, ha, rfl⟩, hmax⟩
    refine ⟨Set.mem_image_of_mem ts (hsub ha), ?_⟩
    rintro x ⟨c, hc, rfl⟩
    obtain ⟨b, hb, hcb, -⟩ := exists_kept_ge (le_max_right (ts c) w) hkeep hc (le_max_left (ts c) w)
    exact hcb.trans (hmax (Set.mem_image_of_mem ts hb))

end Prune

theorem isNewestAt_of_find? {l : List α} (hdesc : l.Pairwise fun x y ↦ ts y < ts x)
    (h : l.find? (fun x ↦ decide (ts x ≤ s)) = some a) :
    IsNewestAt ts {x | x ∈ l} s a := by
  induction l with
  | nil => simp at h
  | cons x l ih =>
    rw [List.pairwise_cons] at hdesc
    by_cases hx : ts x ≤ s
    · simp only [List.find?_cons, hx, decide_true, Option.some.injEq] at h
      subst h
      refine ⟨.head _, hx, fun b hb _ ↦ ?_⟩
      rcases List.mem_cons.mp hb with rfl | hb
      · exact le_rfl
      · exact (hdesc.1 b hb).le
    · simp only [List.find?_cons, hx, decide_false] at h
      obtain ⟨ha, hs, hmax⟩ := ih hdesc.2 h
      refine ⟨List.mem_cons_of_mem x ha, hs, fun b hb hbs ↦ ?_⟩
      rcases List.mem_cons.mp hb with rfl | hb
      · exact absurd hbs hx
      · exact hmax b hb hbs

/-! ## The first newest element of a list -/

theorem argmax_filter {l : List α} {f : α → T} {m : α} {p : α → Bool}
    (hmax : l.argmax f = some m) (hm : p m) : (l.filter p).argmax f = some m := by
  induction l using List.reverseRecOn generalizing m with
  | nil => simp at hmax
  | append_singleton l x ih =>
    rw [List.argmax_concat] at hmax
    rw [List.filter_append]
    cases hl : l.argmax f with
    | none =>
      obtain rfl : l = [] := List.argmax_eq_none.mp hl
      obtain rfl : x = m := by simpa using hmax
      simp [hm]
    | some c =>
      simp only [hl] at hmax
      by_cases hcx : f c < f x
      · obtain rfl : x = m := by simpa [hcx] using hmax
        have hone : List.filter p [x] = [x] := by simp [hm]
        rw [hone, List.argmax_concat]
        cases hc : (l.filter p).argmax f with
        | none => rfl
        | some c' =>
          have hmem : c' ∈ l := (List.mem_filter.mp (List.argmax_mem hc)).1
          have hle : f c' ≤ f c := List.le_of_mem_argmax hmem hl
          exact if_pos (hle.trans_lt hcx)
      · obtain rfl : c = m := by simpa [hcx] using hmax
        have hc := ih hl hm
        by_cases hx : p x
        · have hone : List.filter p [x] = [x] := by simp [hx]
          rw [hone, List.argmax_concat, hc]
          exact if_neg hcx
        · have hnone : List.filter p [x] = [] := by simp [hx]
          rw [hnone, List.append_nil, hc]

end Newest
