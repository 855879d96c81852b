import HatP.Lib.StableSort
import HatP.Sst

/-!
# The compaction merge

Compaction reads the rows of its inputs, sorts them, drops repeats of one
version, recomputes the visibility intervals and leaves out the versions no
reader at or after the watermark can observe.  On each key the merge is the
memtable's collector run on the chain with its newest version reopened.
-/

namespace HatP

variable {key : Bytes} {rows : List VersionedRow} {vs : List VersionedValue} {r : VersionedRow}
  {watermark prevBegin : ℕ}

/-- The order the merge sorts by: key ascending, then `beginTs` descending. -/
def RowLe (a b : VersionedRow) : Prop :=
  a.key < b.key ∨ a.key = b.key ∧ b.version.beginTs ≤ a.version.beginTs

instance : DecidableRel RowLe := fun a b ↦
  inferInstanceAs
    (Decidable (a.key < b.key ∨ a.key = b.key ∧ b.version.beginTs ≤ a.version.beginTs))

instance : IsTrans VersionedRow RowLe where
  trans a b c hab hbc := by
    rcases hab with hab | ⟨hab, hab'⟩ <;> rcases hbc with hbc | ⟨hbc, hbc'⟩
    · exact Or.inl (hab.trans hbc)
    · exact Or.inl (hbc ▸ hab)
    · exact Or.inl (hab ▸ hbc)
    · exact Or.inr ⟨hab.trans hbc, hbc'.trans hab'⟩

instance : Std.Total RowLe where
  total a b := by
    rcases lt_trichotomy a.key b.key with h | h | h
    · exact Or.inl (Or.inl h)
    · rcases le_total b.version.beginTs a.version.beginTs with h' | h'
      · exact Or.inl (Or.inr ⟨h, h'⟩)
      · exact Or.inr (Or.inr ⟨h.symm, h'⟩)
    · exact Or.inr (Or.inl h)

def SameVersion (a b : VersionedRow) : Prop :=
  a.key = b.key ∧ a.version.beginTs = b.version.beginTs

instance : DecidableRel SameVersion := fun a b ↦
  inferInstanceAs (Decidable (a.key = b.key ∧ a.version.beginTs = b.version.beginTs))

/-- `sort_by` followed by `dedup_by`: of the rows with one key and one
`beginTs` the first stays. -/
def sortDedup (rows : List VersionedRow) : List VersionedRow :=
  (rows.insertionSort RowLe).destutter fun a b ↦ ¬SameVersion a b

/-- The loop of the merge behind a row of `key` that begins at `prevBegin`: an
older row of `key` ends where the previous one begins and is kept when that is
above the watermark; a row of the next key is its newest and always kept. -/
def mergeOlder (watermark : ℕ) (key : Bytes) (prevBegin : ℕ) :
    List VersionedRow → List VersionedRow
  | [] => []
  | row :: rows =>
    if row.key = key then
      if watermark < prevBegin then
        ⟨key, { row.version with endTs := prevBegin }⟩ ::
          mergeOlder watermark key row.version.beginTs rows
      else
        mergeOlder watermark key row.version.beginTs rows
    else
      ⟨row.key, { row.version with endTs := openEndedTs }⟩ ::
        mergeOlder watermark row.key row.version.beginTs rows

def mergeKeys (watermark : ℕ) : List VersionedRow → List VersionedRow
  | [] => []
  | row :: rows =>
    ⟨row.key, { row.version with endTs := openEndedTs }⟩ ::
      mergeOlder watermark row.key row.version.beginTs rows

def dedupSuperseded (rows : List VersionedRow) (watermark : ℕ) : List VersionedRow :=
  mergeKeys watermark (sortDedup rows)

/-! ## Sorting and removing repeats -/

theorem mem_of_mem_sortDedup (h : r ∈ sortDedup rows) : r ∈ rows :=
  (List.mem_insertionSort RowLe).mp ((List.destutter_sublist _ _).subset h)

theorem exists_mem_sortDedup (h : r ∈ rows) : ∃ r' ∈ sortDedup rows, SameVersion r r' := by
  have hsorted : r ∈ rows.insertionSort RowLe := (List.mem_insertionSort RowLe).mpr h
  exact StableSort.exists_mem_destutter (fun _ ↦ ⟨rfl, rfl⟩)
    (fun _ _ hsame ↦ ⟨hsame.1.symm, hsame.2.symm⟩) hsorted

theorem sorted_sortDedup (rows : List VersionedRow) : SortedRows (sortDedup rows) := by
  have hle : (sortDedup rows).Pairwise RowLe :=
    (List.pairwise_insertionSort RowLe rows).sublist (List.destutter_sublist _ _)
  have hne : (sortDedup rows).IsChain fun a b ↦ ¬SameVersion a b := List.isChain_destutter _ _
  apply List.isChain_iff_pairwise.mp
  rw [List.isChain_iff_getElem] at hne ⊢
  intro i hi
  rcases List.pairwise_iff_getElem.mp hle i (i + 1) _ hi (Nat.lt_succ_self i) with h | ⟨hkey, hts⟩
  · exact Or.inl h
  · exact Or.inr ⟨hkey, lt_of_le_of_ne hts fun he ↦ hne i hi ⟨hkey, he.symm⟩⟩

/-! ## Recomputing the intervals of one key -/

/-- Close every interval at the next newer `beginTs`, the newest at `upper`. -/
def closeAt : ℕ → List VersionedValue → List VersionedValue
  | _, [] => []
  | upper, v :: vs => { v with endTs := upper } :: closeAt v.beginTs vs

theorem endsFrom_closeAt (upper : ℕ) (vs : List VersionedValue) :
    EndsFrom upper (closeAt upper vs) := by
  induction vs generalizing upper with
  | nil => trivial
  | cons v vs ih => exact ⟨rfl, ih v.beginTs⟩

theorem map_beginTs_closeAt (upper : ℕ) (vs : List VersionedValue) :
    (closeAt upper vs).map VersionedValue.beginTs = vs.map VersionedValue.beginTs := by
  induction vs generalizing upper with
  | nil => rfl
  | cons v vs ih => exact congrArg (List.cons v.beginTs) (ih v.beginTs)

theorem stamps_closeAt (upper : ℕ) (vs : List VersionedValue) :
    stamps (closeAt upper vs) = stamps vs := by
  induction vs generalizing upper with
  | nil => rfl
  | cons v vs ih =>
    ext p
    rw [closeAt, mem_stamps_cons, mem_stamps_cons, ih]
    rfl

theorem descending_closeAt {upper : ℕ} (h : Descending vs) : Descending (closeAt upper vs) := by
  have hmap : (vs.map VersionedValue.beginTs).Pairwise (· > ·) := List.pairwise_map.mpr h
  rw [← map_beginTs_closeAt upper] at hmap
  exact List.pairwise_map.mp hmap

def reopened (vs : List VersionedValue) (h : Descending vs) : VersionChain :=
  ⟨closeAt openEndedTs vs, descending_closeAt h⟩

theorem tiled_reopened (h : Descending vs) : (reopened vs h).Tiled :=
  endsFrom_closeAt openEndedTs vs

/-! ## The merge, key by key -/

theorem key_mem_mergeOlder (h : r ∈ mergeOlder watermark key prevBegin rows) :
    ∃ r' ∈ rows, r'.key = r.key ∧ r'.version.beginTs = r.version.beginTs := by
  induction rows generalizing key prevBegin with
  | nil => simp [mergeOlder] at h
  | cons row rows ih =>
    have htail : ∀ {key' : Bytes} {b : ℕ}, r ∈ mergeOlder watermark key' b rows →
        ∃ r' ∈ row :: rows, r'.key = r.key ∧ r'.version.beginTs = r.version.beginTs := by
      intro key' b h
      obtain ⟨r', hr', hsame⟩ := ih h
      exact ⟨r', List.mem_cons_of_mem row hr', hsame⟩
    simp only [mergeOlder] at h
    split_ifs at h with hkey hkeep
    · rcases List.mem_cons.mp h with rfl | h
      · exact ⟨row, .head _, hkey, rfl⟩
      · exact htail h
    · exact htail h
    · rcases List.mem_cons.mp h with rfl | h
      · exact ⟨row, .head _, rfl, rfl⟩
      · exact htail h

theorem rowBefore_of_mem_mergeOlder {upper : ℕ}
    {row : VersionedRow} (hrow : ∀ r' ∈ rows, RowBefore row r')
    (hr : r ∈ mergeOlder watermark key prevBegin rows) :
    RowBefore ⟨row.key, { row.version with endTs := upper }⟩ r := by
  obtain ⟨r', hr', hkey, hts⟩ := key_mem_mergeOlder hr
  have hbefore := hrow r' hr'
  unfold RowBefore at hbefore ⊢
  rw [hkey, hts] at hbefore
  exact hbefore

theorem sorted_mergeOlder
    (h : SortedRows rows) : SortedRows (mergeOlder watermark key prevBegin rows) := by
  induction rows generalizing key prevBegin with
  | nil => exact List.Pairwise.nil
  | cons row rows ih =>
    obtain ⟨hrow, hrows⟩ := List.pairwise_cons.mp h
    simp only [mergeOlder]
    split_ifs with hkey hkeep
    · subst hkey
      exact List.pairwise_cons.mpr
        ⟨fun r hr ↦ rowBefore_of_mem_mergeOlder hrow hr, ih hrows⟩
    · exact ih hrows
    · exact List.pairwise_cons.mpr
        ⟨fun r hr ↦ rowBefore_of_mem_mergeOlder hrow hr, ih hrows⟩

theorem sorted_mergeKeys (h : SortedRows rows) : SortedRows (mergeKeys watermark rows) := by
  cases rows with
  | nil => exact List.Pairwise.nil
  | cons row rows =>
    obtain ⟨hrow, hrows⟩ := List.pairwise_cons.mp h
    exact List.pairwise_cons.mpr
      ⟨fun r hr ↦ rowBefore_of_mem_mergeOlder hrow hr, sorted_mergeOlder hrows⟩

def mergedVersions (watermark : ℕ) : List VersionedValue → List VersionedValue
  | [] => []
  | v :: vs =>
    { v with endTs := openEndedTs } ::
      (closeAt v.beginTs vs).filter fun u ↦ decide (watermark < u.endTs)

theorem mergedVersions_eq_garbageCollect (watermark : ℕ) (h : Descending vs) :
    mergedVersions watermark vs = ((reopened vs h).garbageCollect watermark).versions := by
  cases vs with
  | nil => rfl
  | cons v vs => exact (VersionChain.garbageCollect_versions_cons watermark rfl).symm

theorem versionsOf_mergeOlder (watermark : ℕ)
    (hsorted : SortedRows rows) (hkeys : ∀ r ∈ rows, key ≤ r.key) (k : Bytes) :
    versionsOf (mergeOlder watermark key prevBegin rows) k =
      if k = key then
        (closeAt prevBegin (versionsOf rows k)).filter fun u ↦ decide (watermark < u.endTs)
      else mergedVersions watermark (versionsOf rows k) := by
  induction rows generalizing key prevBegin with
  | nil => simp [mergeOlder, closeAt, mergedVersions]
  | cons row rows ih =>
    obtain ⟨hrow, hrows⟩ := List.pairwise_cons.mp hsorted
    have hle : ∀ r ∈ rows, row.key ≤ r.key := fun r hr ↦ (hrow r hr).key_le
    rw [versionsOf_cons]
    by_cases hkey : row.key = key
    · subst hkey
      by_cases hk : k = row.key
      · subst hk
        by_cases hkeep : watermark < prevBegin
        · simp [mergeOlder, hkeep, versionsOf_cons, closeAt, ih hrows hle]
        · simp [mergeOlder, hkeep, closeAt, ih hrows hle]
      · by_cases hkeep : watermark < prevBegin
        · simp [mergeOlder, hkeep, versionsOf_cons, hk, Ne.symm hk, ih hrows hle]
        · simp [mergeOlder, hkeep, hk, Ne.symm hk, ih hrows hle]
    · have hlt : key < row.key := lt_of_le_of_ne (hkeys row (.head _)) (Ne.symm hkey)
      rw [mergeOlder, if_neg hkey, versionsOf_cons, ih hrows hle]
      by_cases hk : k = row.key
      · subst hk
        simp [hkey, mergedVersions]
      · have hne : ¬row.key = k := Ne.symm hk
        simp only [hne, if_false, hk]
        split_ifs with hkk
        · have hnil : versionsOf rows k = [] :=
            versionsOf_eq_nil fun r hr ↦ hkk ▸ (hlt.trans_le (hle r hr)).ne'
          simp [hnil, mergedVersions, closeAt]
        · rfl

/-- On each key the merge is the collector of version chains, run on the chain
with recomputed intervals. -/
theorem versionsOf_mergeKeys (watermark : ℕ) (hsorted : SortedRows rows) (k : Bytes) :
    versionsOf (mergeKeys watermark rows) k =
      ((reopened _ (hsorted.descending k)).garbageCollect watermark).versions := by
  rw [← mergedVersions_eq_garbageCollect]
  cases rows with
  | nil => rfl
  | cons row rows =>
    obtain ⟨hrow, hrows⟩ := List.pairwise_cons.mp hsorted
    have hle : ∀ r ∈ rows, row.key ≤ r.key := fun r hr ↦ (hrow r hr).key_le
    rw [mergeKeys, versionsOf_cons, versionsOf_cons, versionsOf_mergeOlder watermark hrows hle]
    by_cases hk : row.key = k
    · simp [hk, mergedVersions]
    · simp [hk, Ne.symm hk]

/-! ## Specification of the merge -/

theorem sorted_dedupSuperseded (rows : List VersionedRow) (w : ℕ) :
    SortedRows (dedupSuperseded rows w) :=
  sorted_mergeKeys (sorted_sortDedup rows)

theorem tiled_dedupSuperseded (rows : List VersionedRow) (w : ℕ) :
    TiledRows (dedupSuperseded rows w) := by
  intro k
  rw [dedupSuperseded, versionsOf_mergeKeys w (sorted_sortDedup rows)]
  exact (tiled_reopened _).garbageCollect w

theorem mem_versionsOf_of_sortDedup {k : Bytes} {v : VersionedValue}
    (h : v ∈ versionsOf (sortDedup rows) k) : v ∈ versionsOf rows k :=
  mem_versionsOf.mpr (mem_of_mem_sortDedup (mem_versionsOf.mp h))

theorem exists_versionsOf_sortDedup {k : Bytes} {v : VersionedValue} (h : v ∈ versionsOf rows k) :
    ∃ u ∈ versionsOf (sortDedup rows) k, u.beginTs = v.beginTs := by
  obtain ⟨⟨k', u⟩, hr, hkey, hts⟩ := exists_mem_sortDedup (mem_versionsOf.mp h)
  obtain rfl : k = k' := hkey
  exact ⟨u, mem_versionsOf.mpr hr, hts.symm⟩

theorem forall_beginTs_iff {P : ℕ → Prop} : (∀ v ∈ vs, P v.beginTs) ↔ ∀ p ∈ stamps vs, P p.1 := by
  constructor
  · rintro h p ⟨v, hv, rfl⟩
    exact h v hv
  · exact fun h v hv ↦ h v.stamp (stamp_mem_stamps hv)

/-- A version is in the output exactly when the repeat-free input has it and no
newer version of the key has begun at or before the watermark. -/
theorem mem_stamps_dedupSuperseded (rows : List VersionedRow) (w : ℕ) (k : Bytes)
    (p : ℕ × Option Bytes) :
    p ∈ stamps (versionsOf (dedupSuperseded rows w) k) ↔
      p ∈ stamps (versionsOf (sortDedup rows) k) ∧
        ∀ v ∈ versionsOf rows k, p.1 < v.beginTs → w < v.beginTs := by
  have hdesc := (sorted_sortDedup rows).descending k
  have hreopened : stamps (reopened _ hdesc).versions = stamps (versionsOf (sortDedup rows) k) :=
    stamps_closeAt openEndedTs _
  have hnewer : (∀ v ∈ (reopened _ hdesc).versions, p.1 < v.beginTs → w < v.beginTs) ↔
      ∀ v ∈ versionsOf rows k, p.1 < v.beginTs → w < v.beginTs := by
    rw [forall_beginTs_iff (P := fun b ↦ p.1 < b → w < b), hreopened,
      ← forall_beginTs_iff (P := fun b ↦ p.1 < b → w < b)]
    constructor
    · intro h v hv
      obtain ⟨u, hu, hts⟩ := exists_versionsOf_sortDedup hv
      exact hts ▸ h u hu
    · exact fun h v hv ↦ h v (mem_versionsOf_of_sortDedup hv)
  rw [dedupSuperseded, versionsOf_mergeKeys w (sorted_sortDedup rows), ← hreopened, ← hnewer]
  constructor
  · rintro ⟨v, hv, rfl⟩
    obtain ⟨hv, hkeep⟩ := (VersionChain.mem_garbageCollect (tiled_reopened hdesc)).mp hv
    exact ⟨stamp_mem_stamps hv, hkeep⟩
  · rintro ⟨⟨v, hv, rfl⟩, hkeep⟩
    exact stamp_mem_stamps
      ((VersionChain.mem_garbageCollect (tiled_reopened hdesc)).mpr ⟨hv, hkeep⟩)

/-- The merge keeps every key: its newest version is never dropped. -/
theorem versionsOf_dedupSuperseded_eq_nil_iff (rows : List VersionedRow) (w : ℕ) (k : Bytes) :
    versionsOf (dedupSuperseded rows w) k = [] ↔ versionsOf rows k = [] := by
  have hdedup : versionsOf (sortDedup rows) k = [] ↔ versionsOf rows k = [] := by
    constructor
    · intro h
      refine List.eq_nil_iff_forall_not_mem.mpr fun v hv ↦ ?_
      obtain ⟨u, hu, -⟩ := exists_versionsOf_sortDedup hv
      simp [h] at hu
    · intro h
      refine List.eq_nil_iff_forall_not_mem.mpr fun v hv ↦ ?_
      have hv := mem_versionsOf_of_sortDedup hv
      simp [h] at hv
  rw [← hdedup, dedupSuperseded, versionsOf_mergeKeys w (sorted_sortDedup rows),
    ← mergedVersions_eq_garbageCollect]
  cases versionsOf (sortDedup rows) k with
  | nil | cons v vs => simp [mergedVersions]

end HatP
