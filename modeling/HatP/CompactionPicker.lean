import HatP.Invariant

/-!
# Background compaction

The picker chooses the next compaction from the metadata of the live files, and
the background worker runs it over the whole source and target level.  A job
moves all files of its source level down by one level and writes at most as many
files as it reads, so the worker comes to rest whatever the files are.
-/

namespace HatP

inductive CompactionPolicy
  | leveled
  | lazyLeveling
  | tiered
deriving DecidableEq

inductive CompactionKind
  | flush
  | l0ToL1
  | levelNToN1
  | bottomMost
deriving DecidableEq

structure CompactionJob where
  kind : CompactionKind
  sourceLevel : ℕ
  targetLevel : ℕ
  inputs : List ℕ
  estimatedBytes : ℕ
  priority : ℕ
deriving DecidableEq

structure MinOverlappingRatioPicker where
  l0Trigger : ℕ
  maxLevel : ℕ
  policy : CompactionPolicy

namespace Compaction

/-- What the picker knows about a file. -/
structure FileMeta where
  fileId : ℕ
  level : ℕ
  bytes : ℕ
  minKey : Bytes
  maxKey : Bytes
  createdAt : ℕ
deriving DecidableEq

def FileMeta.overlaps (file other : FileMeta) : Bool :=
  decide (file.minKey ≤ other.maxKey) && decide (other.minKey ≤ file.maxKey)

def totalBytes (start : ℕ) (files : List FileMeta) : ℕ :=
  files.foldl (fun total file ↦ saturatingAdd total file.bytes) start

def overlapping (candidate : FileMeta) (target : Option (List FileMeta)) : List FileMeta :=
  (target.getD []).filter candidate.overlaps

def overlapRatio (candidate : FileMeta) (target : Option (List FileMeta)) : ℕ :=
  min (totalBytes 0 (overlapping candidate target) * 1000) (2 ^ 64 - 1) / max candidate.bytes 1

def overlapPriority (candidate : FileMeta) (target : Option (List FileMeta)) : ℕ :=
  2 ^ 64 - 1 - totalBytes 0 (overlapping candidate target)

/-- The first file with the lowest ratio, the older one where the ratios agree. -/
def chooseMinOverlap (source : List FileMeta) (target : Option (List FileMeta)) : Option FileMeta :=
  source.argmin fun file ↦ toLex (overlapRatio file target, file.createdAt)

def levelCapacity (level : ℕ) : CompactionPolicy → ℕ
  | .leveled => 1
  | .lazyLeveling => if level ≤ 2 then 4 else 1
  | .tiered => 4

def buildL0Job (l0 : List FileMeta) (l1 : Option (List FileMeta)) : Option CompactionJob := do
  let minKey ← (l0.map FileMeta.minKey).min?
  let maxKey ← (l0.map FileMeta.maxKey).max?
  let inRange := (l1.getD []).filter fun file ↦
    decide (file.minKey ≤ maxKey) && decide (minKey ≤ file.maxKey)
  return {
    kind := .l0ToL1
    sourceLevel := 0
    targetLevel := 1
    inputs := ((l0 ++ inRange).map FileMeta.fileId).insertionSort (· ≤ ·)
    estimatedBytes := totalBytes 0 (l0 ++ inRange)
    priority := l0.length }

def groupByLevel (files : List FileMeta) : Std.ExtTreeMap ℕ (List FileMeta) :=
  files.foldl (fun levels file ↦
    levels.alter file.level fun group ↦ some (group.getD [] ++ [file])) ∅

def atLevel (files : List FileMeta) (level : ℕ) : List FileMeta :=
  files.filter fun file ↦ file.level = level

end Compaction

open Compaction

namespace MinOverlappingRatioPicker

def levelJob (picker : MinOverlappingRatioPicker)
    (levels : Std.ExtTreeMap ℕ (List Compaction.FileMeta)) (level : ℕ) : Option CompactionJob :=
  match levels[level]? with
  | none => none
  | some source =>
    if levelCapacity level picker.policy < source.length then
      let target := levels[level + 1]?
      (chooseMinOverlap source target).map fun candidate ↦
        { kind := if picker.maxLevel ≤ level + 1 then .bottomMost else .levelNToN1
          sourceLevel := level
          targetLevel := level + 1
          inputs := ((candidate :: overlapping candidate target).map
            FileMeta.fileId).insertionSort (· ≤ ·)
          estimatedBytes := totalBytes candidate.bytes (overlapping candidate target)
          priority := overlapPriority candidate target }
    else none

def pick (picker : MinOverlappingRatioPicker) (files : List Compaction.FileMeta) :
    Option CompactionJob :=
  let levels := groupByLevel files
  let l0 := levels[0]?.getD []
  if picker.l0Trigger ≤ l0.length then buildL0Job l0 levels[1]?
  else (List.range' 1 (picker.maxLevel - 1)).findSome? (picker.levelJob levels)

end MinOverlappingRatioPicker

/-! ## What the picker chooses -/

namespace Compaction

variable {l1 : Option (List FileMeta)}

theorem getD_groupByLevel (files : List FileMeta) (level : ℕ) :
    (groupByLevel files)[level]?.getD [] = atLevel files level := by
  induction files using List.reverseRecOn with
  | nil => rfl
  | append_singleton files file ih =>
    rw [groupByLevel, List.foldl_append, List.foldl_cons, List.foldl_nil, ← groupByLevel,
      Std.ExtTreeMap.getElem?_alter, atLevel, List.filter_append, ← atLevel, ← ih]
    by_cases hlevel : file.level = level
    · simp [hlevel]
    · simp [hlevel]

theorem levelCapacity_pos (level : ℕ) (policy : CompactionPolicy) :
    0 < levelCapacity level policy := by
  cases policy with
  | leveled => exact Nat.one_pos
  | lazyLeveling =>
    rw [levelCapacity]
    split <;> decide
  | tiered => exact Nat.succ_pos 3

theorem buildL0Job_eq_none_iff {l0 : List FileMeta} :
    buildL0Job l0 l1 = none ↔ l0 = [] := by
  cases l0 with
  | nil | cons file files => simp [buildL0Job]

theorem levels_of_buildL0Job {l0 : List FileMeta}
    {job : CompactionJob} (h : buildL0Job l0 l1 = some job) :
    job.sourceLevel = 0 ∧ job.targetLevel = 1 := by
  simp only [buildL0Job, Option.bind_eq_bind, Option.bind_eq_some_iff] at h
  obtain ⟨minKey, -, maxKey, -, hjob⟩ := h
  cases hjob
  exact ⟨rfl, rfl⟩

end Compaction

namespace MinOverlappingRatioPicker

variable {picker : MinOverlappingRatioPicker} {files : List Compaction.FileMeta}
  {levels : Std.ExtTreeMap ℕ (List Compaction.FileMeta)} {level : ℕ} {job : CompactionJob}

theorem levelJob_eq_none_iff :
    picker.levelJob levels level = none ↔
      (levels[level]?.getD []).length ≤ levelCapacity level picker.policy := by
  unfold levelJob
  cases levels[level]? with
  | none => simp
  | some source =>
    dsimp only
    rw [Option.getD_some]
    by_cases hfull : levelCapacity level picker.policy < source.length
    · have hne : source ≠ [] := by
        rintro rfl
        exact Nat.not_lt_zero _ hfull
      rw [if_pos hfull, Option.map_eq_none_iff, chooseMinOverlap, List.argmin_eq_none]
      exact iff_of_false hne hfull.not_ge
    · rw [if_neg hfull]
      exact iff_of_true rfl (not_lt.mp hfull)

theorem levels_of_levelJob (h : picker.levelJob levels level = some job) :
    job.sourceLevel = level ∧ job.targetLevel = level + 1 := by
  unfold levelJob at h
  split at h
  · cases h
  split at h
  · obtain ⟨candidate, -, rfl⟩ := Option.map_eq_some_iff.mp h
    exact ⟨rfl, rfl⟩
  · cases h

/-- The picker finds nothing to do exactly in a tree within its limits. -/
theorem pick_eq_none_iff (htrigger : 0 < picker.l0Trigger) :
    picker.pick files = none ↔ (atLevel files 0).length < picker.l0Trigger ∧
      ∀ level, 1 ≤ level → level < picker.maxLevel →
        (atLevel files level).length ≤ levelCapacity level picker.policy := by
  unfold pick
  dsimp only
  rw [getD_groupByLevel]
  split_ifs with hfull
  · rw [buildL0Job_eq_none_iff]
    refine iff_of_false ?_ fun h ↦ h.1.not_ge hfull
    intro hnil
    rw [hnil, List.length_nil] at hfull
    omega
  · rw [List.findSome?_eq_none_iff]
    simp only [levelJob_eq_none_iff, getD_groupByLevel, List.mem_range'_1]
    constructor
    · intro h
      exact ⟨not_le.mp hfull, fun level hone hmax ↦ h level ⟨hone, by omega⟩⟩
    · rintro ⟨-, h⟩ level ⟨hone, hmax⟩
      exact h level hone (by omega)

theorem pick_eq_some (htrigger : 2 ≤ picker.l0Trigger) (hmax : 0 < picker.maxLevel)
    (h : picker.pick files = some job) :
    job.sourceLevel < picker.maxLevel ∧ job.targetLevel = job.sourceLevel + 1 ∧
      2 ≤ (atLevel files job.sourceLevel).length := by
  unfold pick at h
  dsimp only at h
  rw [getD_groupByLevel] at h
  split_ifs at h with hfull
  · obtain ⟨hsource, htarget⟩ := levels_of_buildL0Job h
    rw [hsource, htarget]
    exact ⟨hmax, rfl, htrigger.trans hfull⟩
  · obtain ⟨level, hlevel, hjob⟩ := List.exists_of_findSome?_eq_some h
    obtain ⟨hsource, htarget⟩ := levels_of_levelJob hjob
    have hover : levelCapacity level picker.policy < (atLevel files level).length := by
      rw [← not_le, ← getD_groupByLevel, ← levelJob_eq_none_iff, hjob]
      exact Option.some_ne_none job
    have hpos := levelCapacity_pos level picker.policy
    rw [List.mem_range'_1] at hlevel
    rw [hsource, htarget]
    exact ⟨by omega, rfl, by omega⟩

end MinOverlappingRatioPicker

/-! ## The background worker -/

namespace Engine

/-- What the environment decides in one iteration of the worker: the sizes that
the file system reports, and what it does with the files written. -/
structure IterationEnv where
  diskBytes : ℕ → ℕ
  sst : ℕ → SstEnv

/-- The metadata of a file for the picker; a file without an entry in the
manifest is read instead. -/
def pickerMeta (e : Engine) (diskBytes : ℕ → ℕ) (fileId level : ℕ) : Compaction.FileMeta :=
  match e.versionSet.fileMeta[fileId]? with
  | some info => ⟨fileId, level, info.bytes, info.minKey, info.maxKey, info.createdAt⟩
  | none =>
    let rows := readAll (e.rowsOf fileId)
    { fileId := fileId
      level := level
      bytes := diskBytes fileId
      minKey := (rows.head?.map VersionedRow.key).getD []
      maxKey := (rows.getLast?.map VersionedRow.key).getD []
      createdAt := 0 }

@[simp] theorem level_pickerMeta (e : Engine) (diskBytes : ℕ → ℕ) (fileId level : ℕ) :
    (e.pickerMeta diskBytes fileId level).level = level := by
  unfold pickerMeta
  split <;> rfl

def pickerFiles (e : Engine) (diskBytes : ℕ → ℕ) : List Compaction.FileMeta :=
  e.versionSet.entries.map fun entry ↦ e.pickerMeta diskBytes entry.1 entry.2

def runCompactionIteration (e : Engine) (picker : MinOverlappingRatioPicker)
    (env : IterationEnv) : Engine :=
  match picker.pick (e.pickerFiles env.diskBytes) with
  | none => e
  | some job =>
    if 64 * 1024 * 1024 < job.estimatedBytes then
      e.subCompact job.sourceLevel job.targetLevel e.watermark env.sst
    else e.compact job.sourceLevel job.targetLevel (env.sst 0)

def afterIterations (e : Engine) (picker : MinOverlappingRatioPicker) (env : ℕ → IterationEnv) :
    ℕ → Engine
  | 0 => e
  | n + 1 => (e.afterIterations picker env n).runCompactionIteration picker (env n)

variable {e : Engine} {picker : MinOverlappingRatioPicker} {src tgt w : ℕ}
  {chunks : List (List ℕ)} {env : ℕ → SstEnv}

theorem length_atLevel_pickerFiles (e : Engine) (diskBytes : ℕ → ℕ) (level : ℕ) :
    (atLevel (e.pickerFiles diskBytes) level).length = (e.versionSet.files level).length := by
  have hperm := (e.versionSet.perm_entries_of_level level).length_eq
  rw [List.length_map] at hperm
  simp only [atLevel, pickerFiles, List.filter_map, List.length_map, Function.comp_def,
    level_pickerMeta, hperm]

/-! ## One job -/

theorem ne_nil_of_foldl_splitStep {vs : VersionSet} {maxBytes : ℕ} (inputs : List ℕ)
    (acc : List (List ℕ) × List ℕ × ℕ) (h : ∀ chunk ∈ acc.1, chunk ≠ []) :
    ∀ chunk ∈ (inputs.foldl (splitStep vs maxBytes) acc).1, chunk ≠ [] := by
  induction inputs generalizing acc with
  | nil => exact h
  | cons input inputs ih =>
    apply ih
    unfold splitStep
    dsimp only
    split_ifs with hclose
    · intro chunk hchunk
      rcases List.mem_append.mp hchunk with hold | hnew
      · exact h chunk hold
      · rw [List.mem_singleton.mp hnew]
        exact hclose.2
    · exact h

theorem length_splitBySize_le (inputs : List ℕ) (vs : VersionSet) (maxBytes : ℕ) :
    (splitBySize inputs vs maxBytes).length ≤ inputs.length := by
  have hne : ∀ chunk ∈ splitBySize inputs vs maxBytes, chunk ≠ [] := by
    have hclosed : ∀ chunk ∈ (inputs.foldl (splitStep vs maxBytes) ([], [], 0)).1, chunk ≠ [] :=
      ne_nil_of_foldl_splitStep inputs ([], [], 0) (List.forall_mem_nil _)
    unfold splitBySize
    dsimp only
    split_ifs with hopen
    · exact hclosed
    · intro chunk hchunk
      rcases List.mem_append.mp hchunk with hold | hnew
      · exact hclosed chunk hold
      · rw [List.mem_singleton.mp hnew]
        exact hopen
  have hlength := congrArg List.length (flatten_splitBySize inputs vs maxBytes)
  rw [List.length_flatten] at hlength
  rw [← hlength, ← List.length_map List.length]
  apply List.length_le_sum_of_one_le
  intro n hn
  obtain ⟨chunk, hchunk, rfl⟩ := List.mem_map.mp hn
  exact List.length_pos_iff.mpr (hne chunk hchunk)

theorem length_compactionInputs_le :
    (e.compactionInputs src tgt).length ≤
      (e.versionSet.files src).length + (e.versionSet.files tgt).length := by
  have hsort := List.length_insertionSort (· ≤ ·)
    (e.versionSet.files src ++ e.versionSet.files tgt)
  rw [← List.length_append, ← hsort]
  exact (List.destutter_sublist _ _).length_le

theorem length_files_le_compactionInputs :
    (e.versionSet.files src).length ≤ (e.compactionInputs src tgt).length := by
  have hsubset : e.versionSet.files src ⊆ e.compactionInputs src tgt := fun i hi ↦
    mem_compactionInputs.mpr (.inl hi)
  exact ((e.versionSet.nodup_files src).subperm hsubset).length_le

section Job

variable (hwf : e.versionSet.WellFormed)

include hwf

theorem mem_files_compactLevels {i l : ℕ} :
    i ∈ (e.merged src tgt w chunks env).versionSet.files l ↔
      (i ∈ e.versionSet.files l ∧ l ≠ src ∧ l ≠ tgt) ∨
        l = tgt ∧ ∃ index < chunks.length, i = e.versionSet.nextFileId + index := by
  rw [mem_files_compactChunks hwf fun i ↦ mem_compactionInputs.mp, mem_compactionInputs]
  apply or_congr_left
  apply and_congr_right
  intro hi
  constructor
  · intro hnot
    refine ⟨?_, ?_⟩
    · rintro rfl
      exact hnot (.inl hi)
    · rintro rfl
      exact hnot (.inr hi)
  · rintro ⟨hsrc, htgt⟩ (h | h)
    · exact hsrc (hwf.level_unique hi h)
    · exact htgt (hwf.level_unique hi h)

theorem files_source_compactLevels (hne : src ≠ tgt) :
    (e.merged src tgt w chunks env).versionSet.files src = [] := by
  apply List.eq_nil_iff_forall_not_mem.mpr
  intro i hi
  rcases (mem_files_compactLevels hwf).mp hi with ⟨-, hsrc, -⟩ | ⟨heq, -⟩
  · exact hsrc rfl
  · exact hne heq

theorem length_files_target_compactLevels :
    ((e.merged src tgt w chunks env).versionSet.files tgt).length = chunks.length := by
  have hnodup : ((List.range chunks.length).map (e.versionSet.nextFileId + ·)).Nodup :=
    List.nodup_range.map fun a b h ↦ Nat.add_left_cancel h
  have hperm := (List.perm_ext_iff_of_nodup
    (VersionSet.nodup_files (e.merged src tgt w chunks env).versionSet tgt) hnodup).mpr fun i ↦ by
    rw [mem_files_compactLevels hwf]
    simp [eq_comm]
  simpa using hperm.length_eq

theorem length_files_other_compactLevels {l : ℕ} (hsrc : l ≠ src) (htgt : l ≠ tgt) :
    ((e.merged src tgt w chunks env).versionSet.files
      l).length = (e.versionSet.files l).length := by
  have hperm := (List.perm_ext_iff_of_nodup
    (VersionSet.nodup_files (e.merged src tgt w chunks env).versionSet l)
    (e.versionSet.nodup_files l)).mpr fun i ↦ by
    rw [mem_files_compactLevels hwf]
    simp [hsrc, htgt]
  exact hperm.length_eq

end Job

/-! ## Coming to rest -/

/-- How far the files are above the last level, added up. -/
def heightAbove (maxLevel : ℕ) (vs : VersionSet) : ℕ :=
  ∑ level ∈ Finset.range (maxLevel + 1), (maxLevel - level) * (vs.files level).length

theorem sum_lt_sum_of_two {ι : Type*} [DecidableEq ι] {s : Finset ι} {f g : ι → ℕ} {a b : ι}
    (ha : a ∈ s) (hb : b ∈ s) (hab : a ≠ b) (hrest : ∀ i, i ≠ a → i ≠ b → f i = g i)
    (hlt : f a + f b < g a + g b) : ∑ i ∈ s, f i < ∑ i ∈ s, g i := by
  have hb' : b ∈ s.erase a := Finset.mem_erase.mpr ⟨hab.symm, hb⟩
  have hsame : ∑ i ∈ (s.erase a).erase b, f i = ∑ i ∈ (s.erase a).erase b, g i := by
    apply Finset.sum_congr rfl
    intro i hi
    obtain ⟨hib, hi⟩ := Finset.mem_erase.mp hi
    exact hrest i (Finset.ne_of_mem_erase hi) hib
  rw [← Finset.add_sum_erase s f ha, ← Finset.add_sum_erase s g ha,
    ← Finset.add_sum_erase _ f hb', ← Finset.add_sum_erase _ g hb', hsame]
  omega

theorem heightAbove_compactLevels_lt (hwf : e.versionSet.WellFormed) {maxLevel : ℕ}
    (hlevel : src < maxLevel) (hsrc : 0 < (e.versionSet.files src).length)
    (hchunks : chunks.length ≤ (e.compactionInputs src (src + 1)).length) :
    heightAbove maxLevel (e.merged src (src + 1) w
      chunks env).versionSet < heightAbove maxLevel e.versionSet := by
  apply sum_lt_sum_of_two (Finset.mem_range.mpr (by omega)) (Finset.mem_range.mpr (by omega))
    (Nat.lt_add_one src).ne
  · intro l hl hl'
    rw [length_files_other_compactLevels hwf hl hl']
  · have hinputs := hchunks.trans length_compactionInputs_le
    rw [files_source_compactLevels hwf (Nat.lt_add_one src).ne,
      length_files_target_compactLevels hwf, List.length_nil, Nat.mul_zero, Nat.zero_add]
    obtain ⟨gap, rfl⟩ := Nat.exists_eq_add_of_lt hlevel
    have hheight : src + gap + 1 - src = gap + 1 := by omega
    have hbelow : src + gap + 1 - (src + 1) = gap := by omega
    rw [hheight, hbelow]
    have hmul := Nat.mul_le_mul_left gap hinputs
    rw [Nat.mul_add] at hmul
    rw [Nat.succ_mul]
    omega

theorem runCompactionIteration_eq (htrigger : 2 ≤ picker.l0Trigger) (hmax : 0 < picker.maxLevel)
    {env : IterationEnv} {job : CompactionJob}
    (h : picker.pick (e.pickerFiles env.diskBytes) = some job) :
    ∃ src < picker.maxLevel, 2 ≤ (e.versionSet.files src).length ∧ ∃ w chunks sst,
      chunks.length ≤ (e.compactionInputs src (src + 1)).length ∧
        e.runCompactionIteration picker env =
          e.merged src (src + 1) w chunks sst := by
  obtain ⟨hsource, htarget, hlength⟩ := MinOverlappingRatioPicker.pick_eq_some htrigger hmax h
  rw [length_atLevel_pickerFiles] at hlength
  have hinputs : ¬(e.compactionInputs job.sourceLevel (job.sourceLevel + 1)).length < 2 :=
    not_lt.mpr (hlength.trans length_files_le_compactionInputs)
  refine ⟨job.sourceLevel, hsource, hlength, ?_⟩
  rw [runCompactionIteration, h]
  dsimp only
  rw [htarget]
  split_ifs with hlarge
  · rw [subCompact, if_neg hinputs]
    exact ⟨_, _, _, length_splitBySize_le _ _ _, rfl⟩
  · rw [compact, compactWithWatermark, if_neg hinputs]
    refine ⟨_, _, _, ?_, rfl⟩
    rw [List.length_singleton]
    omega

theorem runCompactionIteration_eq_self {env : IterationEnv}
    (h : picker.pick (e.pickerFiles env.diskBytes) = none) :
    e.runCompactionIteration picker env = e := by
  rw [runCompactionIteration, h]

theorem wellFormed_runCompactionIteration (htrigger : 2 ≤ picker.l0Trigger)
    (hmax : 0 < picker.maxLevel) (hwf : e.versionSet.WellFormed) (env : IterationEnv) :
    (e.runCompactionIteration picker env).versionSet.WellFormed := by
  cases hpick : picker.pick (e.pickerFiles env.diskBytes) with
  | none => rwa [runCompactionIteration_eq_self hpick]
  | some job =>
    obtain ⟨src, -, -, w, chunks, sst, -, heq⟩ := runCompactionIteration_eq htrigger hmax hpick
    rw [heq]
    exact wellFormed_compactChunks hwf fun i ↦ mem_compactionInputs.mp

theorem wellFormed_afterIterations (htrigger : 2 ≤ picker.l0Trigger)
    (hmax : 0 < picker.maxLevel) (hwf : e.versionSet.WellFormed) (env : ℕ → IterationEnv) (n : ℕ) :
    (e.afterIterations picker env n).versionSet.WellFormed := by
  induction n with
  | zero => exact hwf
  | succ n ih => exact wellFormed_runCompactionIteration htrigger hmax ih (env n)

def WithinLimits (picker : MinOverlappingRatioPicker) (vs : VersionSet) : Prop :=
  (vs.files 0).length < picker.l0Trigger ∧ ∀ level, 1 ≤ level → level < picker.maxLevel →
    (vs.files level).length ≤ levelCapacity level picker.policy

theorem pick_pickerFiles_eq_none_iff (htrigger : 0 < picker.l0Trigger) (diskBytes : ℕ → ℕ) :
    picker.pick (e.pickerFiles diskBytes) = none ↔ WithinLimits picker e.versionSet := by
  rw [MinOverlappingRatioPicker.pick_eq_none_iff htrigger]
  simp only [length_atLevel_pickerFiles, WithinLimits]

/-- The worker runs finitely many jobs, each of which changes the version set,
and then finds the tree within its limits for good. -/
theorem compaction_quiesces (e : Engine) (picker : MinOverlappingRatioPicker)
    (env : ℕ → IterationEnv) (htrigger : 2 ≤ picker.l0Trigger) (hmax : 2 ≤ picker.maxLevel)
    (hwf : e.versionSet.WellFormed) :
    ∃ n,
      (∀ m < n,
        (picker.pick ((e.afterIterations picker env m).pickerFiles (env m).diskBytes)).isSome ∧
          (e.afterIterations picker env (m + 1)).versionSet ≠
            (e.afterIterations picker env m).versionSet) ∧
      (∀ diskBytes, picker.pick ((e.afterIterations picker env n).pickerFiles diskBytes) = none) ∧
      (∀ m, n ≤ m → e.afterIterations picker env m = e.afterIterations picker env n) ∧
      WithinLimits picker (e.afterIterations picker env n).versionSet := by
  have htrigger' : 0 < picker.l0Trigger := by omega
  have hmax' : 0 < picker.maxLevel := by omega
  have hwell := wellFormed_afterIterations htrigger hmax' hwf env
  have hbusy : ∀ m, ¬WithinLimits picker (e.afterIterations picker env m).versionSet →
      (picker.pick ((e.afterIterations picker env m).pickerFiles (env m).diskBytes)).isSome ∧
        heightAbove picker.maxLevel (e.afterIterations picker env (m + 1)).versionSet <
          heightAbove picker.maxLevel (e.afterIterations picker env m).versionSet := by
    intro m hm
    cases hpick : picker.pick
        ((e.afterIterations picker env m).pickerFiles (env m).diskBytes) with
    | none => exact absurd ((pick_pickerFiles_eq_none_iff htrigger' _).mp hpick) hm
    | some job =>
      obtain ⟨src, hsrc, hlength, w, chunks, sst, hchunks, heq⟩ :=
        runCompactionIteration_eq htrigger hmax' hpick
      refine ⟨rfl, ?_⟩
      rw [afterIterations, heq]
      exact heightAbove_compactLevels_lt (hwell m) hsrc (by omega) hchunks
  have hrest : ∃ n, WithinLimits picker (e.afterIterations picker env n).versionSet := by
    by_contra hnever
    have hdescends : StrictAnti fun m ↦
        heightAbove picker.maxLevel (e.afterIterations picker env m).versionSet :=
      strictAnti_nat_of_succ_lt fun m ↦ (hbusy m (not_exists.mp hnever m)).2
    exact not_strictAnti_of_wellFoundedLT _ hdescends
  classical
  have hlimits := Nat.find_spec hrest
  refine ⟨Nat.find hrest, fun m hm ↦ ?_, fun diskBytes ↦ ?_, fun m hm ↦ ?_, hlimits⟩
  · obtain ⟨hsome, hlt⟩ := hbusy m (Nat.find_min hrest hm)
    exact ⟨hsome, fun heq ↦ hlt.ne (congrArg _ heq)⟩
  · exact (pick_pickerFiles_eq_none_iff htrigger' _).mpr hlimits
  · induction m, hm using Nat.le_induction with
    | base => rfl
    | succ m hm ih =>
      rw [afterIterations, runCompactionIteration_eq_self, ih]
      rw [ih]
      exact (pick_pickerFiles_eq_none_iff htrigger' _).mpr hlimits

def overfullLevels : List Op :=
  (List.range 9).flatMap fun n ↦
    [.write (n + 1) [.put [UInt8.ofNat n] [1]], .flush ⟨maxChunkBytes, n, none, true⟩]

/-- Nine flushed files too large to be merged with each other. -/
theorem compaction_quiesces_overfull :
    let e := overfullLevels.foldl exec initial
    let picker : MinOverlappingRatioPicker := ⟨4, 6, .lazyLeveling⟩
    let env : ℕ → IterationEnv := fun _ ↦ ⟨fun _ ↦ 0, fun _ ↦ ⟨maxChunkBytes, 0, none, true⟩⟩
    ∃ n, WithinLimits picker (e.afterIterations picker env n).versionSet := by
  intro e picker env
  have hinv : e.Inv :=
    List.foldlRecOn overfullLevels exec inv_initial fun _ hinv op _ ↦ hinv.exec op
  obtain ⟨n, -, -, -, hlimits⟩ :=
    compaction_quiesces e picker env (by decide) (by decide) hinv.versionSet
  exact ⟨n, hlimits⟩

end Engine

end HatP
