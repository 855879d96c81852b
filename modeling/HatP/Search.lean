import HatP.Engine

/-!
# The file loop of a point read

The loop asks the candidate files in order, skips leveled files once a leveled
file has answered, and keeps the newest version offered.  Its result is the
first newest one among the files it takes an answer from.
-/

namespace HatP

namespace Engine

variable {st : Search} {i : ℕ}

/-- An answer the loop takes: the file, the version it offers and whether its
key index answered. -/
structure Answer where
  fileId : ℕ
  visible : Option VersionedValue
  indexed : Bool

/-- The answers the loop takes from `files` when a leveled file has (`found`)
or has not answered before. -/
def answers (level : ℕ → ℕ) (probe : ℕ → Probe) : Bool → List ℕ → List Answer
  | _, [] => []
  | found, i :: is =>
    if found ∧ 0 < level i then answers level probe found is
    else match probe i with
      | .absent => answers level probe found is
      | .found visible indexed =>
        ⟨i, visible, indexed⟩ :: answers level probe (found || decide (0 < level i)) is

def offers (as : List Answer) : List (ℕ × VersionedValue) :=
  as.filterMap fun a ↦ a.visible.map fun v ↦ (a.fileId, v)

def Newer (a b : ℕ × VersionedValue) : Prop := b.2.beginTs < a.2.beginTs

instance : DecidableRel Newer := fun a b ↦
  inferInstanceAs (Decidable (b.2.beginTs < a.2.beginTs))

variable {key : Bytes} {level : ℕ → ℕ} {probe : ℕ → Probe} {visible : Option VersionedValue}

theorem offers_cons_none (i : ℕ) (b : Bool) (as : List Answer) :
    offers (⟨i, none, b⟩ :: as) = offers as := by
  simp [offers]

theorem offers_cons_some (i : ℕ) (v : VersionedValue) (b : Bool) (as : List Answer) :
    offers (⟨i, some v, b⟩ :: as) = (i, v) :: offers as := by
  simp [offers]

theorem searchStep_skip (h : st.foundInLeveled = true ∧ 0 < level i) :
    searchStep key level probe st i = st := by
  simp [searchStep, h]

theorem searchStep_absent (h : probe i = .absent) : searchStep key level probe st i = st := by
  simp [searchStep, h]

theorem searchStep_found {indexed : Bool}
    (hskip : ¬(st.foundInLeveled = true ∧ 0 < level i)) (h : probe i = .found visible indexed) :
    searchStep key level probe st i =
      { newest := (visible.filter fun v ↦ isNewer v st.newest).or st.newest
        foundInLeveled := st.foundInLeveled || decide (0 < level i)
        hotKeyCache :=
          if indexed && (visible.filter fun v ↦ isNewer v st.newest).isSome then
            hotKeyCacheInsert st.hotKeyCache key i
          else st.hotKeyCache } := by
  simp only [searchStep, if_neg hskip, h]

def better (best : Option (ℕ × VersionedValue)) (i : ℕ) (visible : Option VersionedValue) :
    Option (ℕ × VersionedValue) :=
  visible.elim best fun v ↦ List.argAux Newer best (i, v)

/-- What relates the loop state to the best offer so far, and is kept by every
answer the loop takes, relates the final state to the first newest offer. -/
theorem foldl_searchStep {R : Search → Option (ℕ × VersionedValue) → Prop} (files : List ℕ)
    (hanswer : ∀ i ∈ files, ∀ visible indexed st best, probe i = .found visible indexed →
      ¬(st.foundInLeveled = true ∧ 0 < level i) → R st best →
        R (searchStep key level probe st i) (better best i visible))
    (st : Search) (best : Option (ℕ × VersionedValue)) (h : R st best) :
    R (files.foldl (searchStep key level probe) st)
      ((offers (answers level probe st.foundInLeveled files)).foldl (List.argAux Newer) best) := by
  induction files generalizing st best with
  | nil => exact h
  | cons i files ih =>
    have hrest := ih fun j hj ↦ hanswer j (List.mem_cons_of_mem i hj)
    rw [List.foldl_cons]
    by_cases hskip : st.foundInLeveled = true ∧ 0 < level i
    · rw [searchStep_skip hskip, answers, if_pos hskip]
      exact hrest st best h
    · cases hprobe : probe i with
      | absent =>
        rw [searchStep_absent hprobe, answers, if_neg hskip, hprobe]
        exact hrest st best h
      | found visible indexed =>
        have hstep := hanswer i (.head _) visible indexed st best hprobe hskip h
        have hlevel : (searchStep key level probe st i).foundInLeveled =
            (st.foundInLeveled || decide (0 < level i)) := by
          rw [searchStep_found hskip hprobe]
        have hall := hrest _ _ hstep
        rw [hlevel] at hall
        rw [answers, if_neg hskip, hprobe]
        cases visible with
        | none =>
          dsimp only
          rw [offers_cons_none]
          exact hall
        | some v =>
          dsimp only
          rw [offers_cons_some, List.foldl_cons]
          exact hall

theorem map_snd_better {best : Option (ℕ × VersionedValue)}
    (hbest : st.newest = best.map Prod.snd) (i : ℕ) (visible : Option VersionedValue) :
    (visible.filter fun v ↦ isNewer v st.newest).or st.newest =
      (better best i visible).map Prod.snd := by
  rw [hbest]
  cases visible with
  | none => rfl
  | some v =>
    cases best with
    | none => rfl
    | some b =>
      by_cases hlt : b.2.beginTs < v.beginTs
      · simp [better, isNewer, List.argAux, Option.filter, Newer, hlt]
      · simp [better, isNewer, List.argAux, Option.filter, Newer, hlt]

theorem search_newest (files : List ℕ) (cache : Std.ExtTreeMap Bytes ℕ) :
    (files.foldl (searchStep key level probe) ⟨none, false, cache⟩).newest =
      ((offers (answers level probe false files)).argmax fun x ↦ x.2.beginTs).map Prod.snd := by
  refine foldl_searchStep (R := fun st best ↦ st.newest = best.map Prod.snd) files ?_
    ⟨none, false, cache⟩ none rfl
  intro i _ visible indexed st best hprobe hskip hbest
  rw [searchStep_found hskip hprobe]
  exact map_snd_better hbest i visible

theorem mem_offers {as : List Answer} {v : VersionedValue} :
    (i, v) ∈ offers as ↔ ∃ b, ⟨i, some v, b⟩ ∈ as := by
  simp only [offers, List.mem_filterMap, Option.map_eq_some_iff, Prod.mk.injEq]
  constructor
  · rintro ⟨⟨f, visible, b⟩, ha, u, hu, rfl, rfl⟩
    obtain rfl : visible = some u := hu
    exact ⟨b, ha⟩
  · rintro ⟨b, ha⟩
    exact ⟨_, ha, v, rfl, rfl, rfl⟩

theorem get_fst (e : Engine) (key : Bytes) (s : ℕ) :
    (e.get key s).1 = if e.isDroppedPrefix key then none
      else (((e.memtable.get key s).or (e.hotKeyHit key s)).or
        (e.searchFiles key s).newest).bind VersionedValue.value := by
  unfold get
  split_ifs
  · rfl
  · cases e.memtable.get key s with
    | some version => rfl
    | none =>
      cases e.hotKeyHit key s with
      | some version | none => rfl

def Probe.isFound : Probe → Bool
  | .absent => false
  | .found _ _ => true

theorem mem_cons_and_level {f : ℕ} (files : List ℕ) (hlevel : 0 < level i) :
    f ∈ i :: files ∧ level f = 0 ↔ f ∈ files ∧ level f = 0 := by
  refine and_congr_left fun hzero ↦ ?_
  have hne : f ≠ i := by
    rintro rfl
    omega
  rw [List.mem_cons, or_iff_right hne]

theorem eq_answer_iff {indexed : Bool} {a : Answer} (hprobe : probe i = .found visible indexed) :
    a = ⟨i, visible, indexed⟩ ↔ probe a.fileId = .found a.visible a.indexed ∧ a.fileId = i := by
  obtain ⟨f, v, b⟩ := a
  constructor
  · rintro ⟨⟩
    exact ⟨hprobe, rfl⟩
  · rintro ⟨ha, rfl⟩
    obtain ⟨rfl, rfl⟩ := Probe.found.inj (hprobe.symm.trans ha)
    rfl

/-- The loop takes the answers of all files of level zero and of the first
leveled file that has one. -/
theorem mem_answers {found : Bool} {files : List ℕ} {a : Answer} :
    a ∈ answers level probe found files ↔ probe a.fileId = .found a.visible a.indexed ∧
      (a.fileId ∈ files ∧ level a.fileId = 0 ∨ found = false ∧
        files.find? (fun i ↦ decide (0 < level i) && (probe i).isFound) = some a.fileId) := by
  induction files generalizing found with
  | nil => simp [answers]
  | cons i files ih =>
    by_cases hskip : found = true ∧ 0 < level i
    · rw [answers, if_pos hskip, ih, hskip.1]
      refine and_congr_right fun _ ↦ ?_
      rw [mem_cons_and_level files hskip.2]
      simp only [Bool.true_eq_false, false_and]
    · cases hprobe : probe i with
      | absent =>
        rw [answers, if_neg hskip, hprobe, ih]
        refine and_congr_right fun ha ↦ ?_
        have hne : a.fileId ≠ i := by
          rintro rfl
          simp [hprobe] at ha
        have hfind : (i :: files).find? (fun i ↦ decide (0 < level i) && (probe i).isFound) =
            files.find? fun i ↦ decide (0 < level i) && (probe i).isFound := by
          rw [List.find?_cons_of_neg (by simp [hprobe, Probe.isFound])]
        simp [hfind, hne]
      | found visible indexed =>
        rw [answers, if_neg hskip, hprobe]
        dsimp only
        rw [List.mem_cons, ih]
        rw [eq_answer_iff hprobe, ← and_or_left]
        refine and_congr_right fun _ ↦ ?_
        by_cases hlevel : 0 < level i
        · have hfalse : found = false := by
            by_contra hfound
            exact hskip ⟨by simpa using hfound, hlevel⟩
          have hfind : (i :: files).find?
              (fun i ↦ decide (0 < level i) && (probe i).isFound) = some i := by
            rw [List.find?_cons_of_pos (by simp [hlevel, hprobe, Probe.isFound])]
          rw [mem_cons_and_level files hlevel, hfalse, hfind]
          simp only [hlevel, decide_true, Bool.or_true, Bool.true_eq_false, false_and,
            or_false, true_and, Option.some.injEq]
          rw [or_comm, eq_comm (a := i)]
        · have hzero : level i = 0 := by omega
          have hfind : (i :: files).find?
              (fun i ↦ decide (0 < level i) && (probe i).isFound) =
              files.find? fun i ↦ decide (0 < level i) && (probe i).isFound := by
            rw [List.find?_cons_of_neg (by simp [hlevel])]
          simp only [hfind, hlevel, decide_false, Bool.or_false, List.mem_cons]
          constructor
          · rintro (heq | ⟨h, h'⟩ | h)
            · exact Or.inl ⟨Or.inl heq, heq ▸ hzero⟩
            · exact Or.inl ⟨Or.inr h, h'⟩
            · exact Or.inr h
          · rintro (⟨heq | h, h'⟩ | h)
            · exact Or.inl heq
            · exact Or.inr (Or.inl ⟨h, h'⟩)
            · exact Or.inr (Or.inr h)

end Engine

end HatP
