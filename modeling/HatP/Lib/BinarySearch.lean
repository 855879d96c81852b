import Mathlib.Order.Basic
import Mathlib.Data.Nat.Init
import Mathlib.Data.List.TakeWhile

/-!
# Binary search

The search by a three-way probe halves an index range and stops at the first
probe that compares equal.  With repeated keys the index it stops at is some
index of the key, not a particular one.  The search for a partition point stops
at the first index where a predicate fails.
-/

namespace BinarySearch

/-- The loop over the half-open range from `lo` to `hi`; `fuel` bounds the
number of iterations. -/
def search (probe : ℕ → Ordering) : ℕ → ℕ → ℕ → Option ℕ
  | 0, _, _ => none
  | fuel + 1, lo, hi =>
    if lo < hi then
      let mid := lo + (hi - lo) / 2
      match probe mid with
      | .lt => search probe fuel (mid + 1) hi
      | .gt => search probe fuel lo mid
      | .eq => some mid
    else none

variable {probe : ℕ → Ordering} {fuel lo hi i : ℕ}

theorem search_eq_some (h : search probe fuel lo hi = some i) :
    lo ≤ i ∧ i < hi ∧ probe i = .eq := by
  induction fuel generalizing lo hi with
  | zero => simp [search] at h
  | succ fuel ih =>
    simp only [search] at h
    split_ifs at h with hlt
    cases hprobe : probe (lo + (hi - lo) / 2) with
    | lt | gt =>
      rw [hprobe] at h
      obtain ⟨hle, hltHi, heq⟩ := ih h
      exact ⟨by omega, by omega, heq⟩
    | eq =>
      rw [hprobe] at h
      obtain rfl := Option.some.inj h
      exact ⟨by omega, by omega, hprobe⟩

theorem search_eq_none (hfuel : hi - lo ≤ fuel)
    (hlt : ∀ i j, i ≤ j → j < hi → probe j = .lt → probe i = .lt)
    (hgt : ∀ i j, i ≤ j → j < hi → probe i = .gt → probe j = .gt)
    (h : search probe fuel lo hi = none) (hlo : lo ≤ i) (hhi : i < hi) : probe i ≠ .eq := by
  induction fuel generalizing lo hi with
  | zero => omega
  | succ fuel ih =>
    simp only [search] at h
    rw [if_pos (by omega)] at h
    cases hprobe : probe (lo + (hi - lo) / 2) with
    | lt =>
      rw [hprobe] at h
      by_cases hi' : i ≤ lo + (hi - lo) / 2
      · rw [hlt i _ hi' (by omega) hprobe]
        decide
      · exact ih (by omega) hlt hgt h (by omega) hhi
    | gt =>
      rw [hprobe] at h
      by_cases hi' : lo + (hi - lo) / 2 ≤ i
      · rw [hgt _ i hi' hhi hprobe]
        decide
      · refine ih (by omega) (fun a b hab hb ↦ hlt a b hab (by omega))
          (fun a b hab hb ↦ hgt a b hab (by omega)) h hlo (by omega)
    | eq =>
      rw [hprobe] at h
      simp at h

/-- The loop with the indices it probes; `none` when the fuel runs out before the
loop ends. -/
def trace (probe : ℕ → Ordering) : ℕ → ℕ → ℕ → Option (List ℕ × Option ℕ)
  | 0, _, _ => none
  | fuel + 1, lo, hi =>
    if lo < hi then
      let mid := lo + (hi - lo) / 2
      match probe mid with
      | .lt => (trace probe fuel (mid + 1) hi).map (Prod.map (mid :: ·) id)
      | .gt => (trace probe fuel lo mid).map (Prod.map (mid :: ·) id)
      | .eq => some ([mid], some mid)
    else some ([], none)

theorem exists_trace (hfuel : hi - lo ≤ fuel) :
    ∃ mids, trace probe (fuel + 1) lo hi = some (mids, search probe fuel lo hi) ∧
      ∀ mid ∈ mids, mid < hi := by
  induction fuel generalizing lo hi with
  | zero =>
    refine ⟨[], ?_, by simp⟩
    rw [trace, if_neg (by omega), search]
  | succ fuel ih =>
    rw [trace, search]
    by_cases hlt : lo < hi
    · rw [if_pos hlt, if_pos hlt]
      dsimp only
      cases probe (lo + (hi - lo) / 2) with
      | lt =>
        have hsmaller : hi - (lo + (hi - lo) / 2 + 1) ≤ fuel := by omega
        obtain ⟨mids, hmids, hbound⟩ := ih hsmaller
        exact ⟨_ :: mids, by rw [hmids]; rfl, List.forall_mem_cons.mpr ⟨by omega, hbound⟩⟩
      | gt =>
        have hsmaller : lo + (hi - lo) / 2 - lo ≤ fuel := by omega
        obtain ⟨mids, hmids, hbound⟩ := ih hsmaller
        refine ⟨_ :: mids, by rw [hmids]; rfl, List.forall_mem_cons.mpr ⟨by omega, ?_⟩⟩
        exact fun mid hmid ↦ (hbound mid hmid).trans (by omega)
      | eq => exact ⟨_, rfl, by simpa using by omega⟩
    · rw [if_neg hlt, if_neg hlt]
      exact ⟨[], rfl, by simp⟩

/-! ## The partition point -/

def partitionPoint (p : ℕ → Bool) : ℕ → ℕ → ℕ → ℕ
  | 0, lo, _ => lo
  | fuel + 1, lo, hi =>
    if lo < hi then
      let mid := lo + (hi - lo) / 2
      if p mid then partitionPoint p fuel (mid + 1) hi else partitionPoint p fuel lo mid
    else lo

theorem partitionPoint_spec {p : ℕ → Bool} (fuel lo hi : ℕ) (hfuel : hi - lo ≤ fuel)
    (hle : lo ≤ hi) (hp : ∀ i j, i ≤ j → j < hi → p j = true → p i = true) :
    lo ≤ partitionPoint p fuel lo hi ∧ partitionPoint p fuel lo hi ≤ hi ∧
      (∀ i, lo ≤ i → i < partitionPoint p fuel lo hi → p i = true) ∧
      ∀ i, partitionPoint p fuel lo hi ≤ i → i < hi → p i = false := by
  induction fuel generalizing lo hi with
  | zero =>
    simp only [partitionPoint]
    exact ⟨le_rfl, hle, fun i _ _ ↦ by omega, fun i _ _ ↦ by omega⟩
  | succ fuel ih =>
    simp only [partitionPoint]
    split_ifs with hlt hmid
    · obtain ⟨hlo, hhi, hbelow, habove⟩ := ih (lo + (hi - lo) / 2 + 1) hi (by omega) (by omega) hp
      refine ⟨by omega, hhi, fun i _ hi' ↦ ?_, habove⟩
      by_cases hleft : i ≤ lo + (hi - lo) / 2
      · exact hp i _ hleft (by omega) hmid
      · exact hbelow i (by omega) hi'
    · obtain ⟨hlo, hhi, hbelow, habove⟩ := ih lo (lo + (hi - lo) / 2) (by omega) (by omega)
        fun i j hij hj ↦ hp i j hij (by omega)
      refine ⟨hlo, by omega, hbelow, fun i hi' hlast ↦ ?_⟩
      by_cases hleft : i < lo + (hi - lo) / 2
      · exact habove i hi' hleft
      · rw [Bool.eq_false_iff]
        exact fun htrue ↦ hmid (hp _ i (by omega) hlast htrue)
    · exact ⟨le_rfl, hle, fun i _ _ ↦ by omega, fun i _ _ ↦ by omega⟩

/-! ## Lists -/

section Lists

variable {α : Type*} {xs : List α} {cmp : α → Ordering}

/-- `partition_point` of a list. -/
def listPartitionPoint (p : α → Bool) (xs : List α) : ℕ :=
  partitionPoint (fun i ↦ (xs[i]?).any p) xs.length 0 xs.length

theorem take_listPartitionPoint {p : α → Bool}
    (hp : xs.Pairwise fun a b ↦ p b = true → p a = true) :
    xs.take (listPartitionPoint p xs) = xs.takeWhile p := by
  have hmono : ∀ i j, i ≤ j → j < xs.length → (xs[j]?).any p = true → (xs[i]?).any p = true := by
    intro i j hij hj htrue
    rcases hij.eq_or_lt with rfl | hlt
    · exact htrue
    · rw [List.getElem?_eq_getElem hj] at htrue
      rw [List.getElem?_eq_getElem (hlt.trans hj)]
      exact List.pairwise_iff_getElem.mp hp i j _ hj hlt htrue
  obtain ⟨-, hle, hbelow, habove⟩ :=
    partitionPoint_spec xs.length 0 xs.length (Nat.sub_le _ _) (Nat.zero_le _) hmono
  rw [List.takeWhile_eq_take_findIdx_not, listPartitionPoint]
  congr 1
  symm
  rcases hle.eq_or_lt with heq | hlt
  · rw [heq, List.findIdx_eq_length]
    intro a ha
    obtain ⟨i, hi, rfl⟩ := List.mem_iff_getElem.mp ha
    have htrue := hbelow i (Nat.zero_le i) (hi.trans_eq heq.symm)
    rw [List.getElem?_eq_getElem hi] at htrue
    simpa using htrue
  · rw [List.findIdx_eq hlt]
    constructor
    · have hfalse := habove _ le_rfl hlt
      rw [List.getElem?_eq_getElem hlt] at hfalse
      simpa using hfalse
    · intro i hi
      have htrue := hbelow i (Nat.zero_le i) hi
      rw [List.getElem?_eq_getElem (hi.trans hlt)] at htrue
      simpa using htrue

/-- `binary_search_by` of a list, with the element found. -/
def listSearch (cmp : α → Ordering) (xs : List α) : Option α :=
  (search (fun i ↦ (xs[i]?.map cmp).getD .gt) xs.length 0 xs.length).bind (xs[·]?)

theorem listSearch_eq_some {a : α} (h : listSearch cmp xs = some a) :
    a ∈ xs ∧ cmp a = .eq := by
  obtain ⟨i, hsearch, hi⟩ := Option.bind_eq_some_iff.mp h
  have hprobe := (search_eq_some hsearch).2.2
  rw [hi] at hprobe
  exact ⟨List.mem_of_getElem? hi, hprobe⟩

theorem exists_listSearch
    (hsorted : xs.Pairwise fun a b ↦ (cmp b = .lt → cmp a = .lt) ∧ (cmp a = .gt → cmp b = .gt))
    {a : α} (ha : a ∈ xs) (heq : cmp a = .eq) : ∃ b, listSearch cmp xs = some b := by
  have hordered : ∀ i j (hij : i ≤ j) (hj : j < xs.length),
      (cmp xs[j] = .lt → cmp (xs.get ⟨i, hij.trans_lt hj⟩) = .lt) ∧
        (cmp (xs.get ⟨i, hij.trans_lt hj⟩) = .gt → cmp xs[j] = .gt) := by
    intro i j hij hj
    rcases hij.eq_or_lt with rfl | hlt
    · exact ⟨id, id⟩
    · exact List.pairwise_iff_getElem.mp hsorted i j _ hj hlt
  cases hsearch : search (fun i ↦ (xs[i]?.map cmp).getD .gt) xs.length 0 xs.length with
  | some i =>
    have hi := (search_eq_some hsearch).2.1
    refine ⟨xs[i], ?_⟩
    rw [listSearch, hsearch, Option.bind_some, List.getElem?_eq_getElem hi]
  | none =>
    obtain ⟨i, hi, rfl⟩ := List.mem_iff_getElem.mp ha
    have hne := search_eq_none (by omega) ?_ ?_ hsearch (Nat.zero_le i) hi
    · rw [List.getElem?_eq_getElem hi] at hne
      exact absurd heq hne
    · intro a b hab hb hlt
      rw [List.getElem?_eq_getElem hb] at hlt
      rw [List.getElem?_eq_getElem (hab.trans_lt hb)]
      exact (hordered a b hab hb).1 hlt
    · intro a b hab hb hgt
      rw [List.getElem?_eq_getElem (hab.trans_lt hb)] at hgt
      rw [List.getElem?_eq_getElem hb]
      exact (hordered a b hab hb).2 hgt

end Lists

end BinarySearch
