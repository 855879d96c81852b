import HatP.Lib.StableSort
import HatP.Sst

/-!
# The version set

The manifest's in-memory state: which files live at which level, their key
ranges and sizes, and the next file id.  A manifest batch applies a list of
edits and then rebuilds the two search indexes, so the indexes are functions
of the membership and the metadata.
-/

namespace HatP

open Std (ExtTreeMap ExtTreeSet LawfulEqCmp ReflCmp)

structure FileMeta where
  minKey : Bytes
  maxKey : Bytes
  bytes : ℕ
  createdAt : ℕ
deriving DecidableEq

def FileMeta.covers (info : FileMeta) (key : Bytes) : Bool :=
  decide (info.minKey ≤ key) && decide (info.maxKey = [] ∨ key ≤ info.maxKey)

inductive VersionEdit
  | addFile (fileId level : ℕ) (info : FileMeta)
  | deleteFile (fileId level : ℕ)
  | nextFileId (fileId : ℕ)
  | droppedPrefix (tablePrefix : Bytes)
  | undroppedPrefix (tablePrefix : Bytes)
deriving DecidableEq

structure VersionSet where
  levels : ExtTreeMap ℕ (ExtTreeSet ℕ)
  fileMeta : ExtTreeMap ℕ FileMeta
  nextFileId : ℕ
  dropped : ExtTreeSet Bytes

namespace VersionSet

variable {vs : VersionSet} {i l : ℕ}

def initial : VersionSet := ⟨∅, ∅, 0, ∅⟩

def apply (vs : VersionSet) : VersionEdit → VersionSet
  | .addFile fileId level info =>
    { vs with
      levels := vs.levels.alter level fun files ↦ some ((files.getD ∅).insert fileId)
      fileMeta := vs.fileMeta.insert fileId info
      nextFileId := max vs.nextFileId (fileId + 1) }
  | .deleteFile fileId level =>
    { vs with
      levels := vs.levels.alter level fun files ↦ files.bind fun files ↦
        let files := files.erase fileId
        if files.isEmpty then none else some files
      fileMeta := vs.fileMeta.erase fileId }
  | .nextFileId fileId => { vs with nextFileId := max vs.nextFileId fileId }
  | .droppedPrefix tablePrefix => { vs with dropped := vs.dropped.insert tablePrefix }
  | .undroppedPrefix tablePrefix => { vs with dropped := vs.dropped.erase tablePrefix }

def applied (vs : VersionSet) (edits : List VersionEdit) : VersionSet :=
  edits.foldl apply vs

def files (vs : VersionSet) (level : ℕ) : List ℕ :=
  (vs.levels[level]?.getD ∅).toList

/-- The index `files_by_key`: the files by ascending `minKey`, by id where the
keys are equal (the sort is stable). -/
def filesByKey (vs : VersionSet) : List (Bytes × ℕ) :=
  (vs.fileMeta.toList.map fun file ↦ (file.2.minKey, file.1)).insertionSort fun a b ↦ a.1 ≤ b.1

def fileLevel (vs : VersionSet) : List (ℕ × ℕ) :=
  (vs.levels.toList.flatMap fun level ↦ level.2.toList.map fun file ↦ (file, level.1)).insertionSort
    fun a b ↦ a.1 ≤ b.1

def fileLevelFor (vs : VersionSet) (fileId : ℕ) : Option ℕ :=
  (vs.fileLevel.find? fun entry ↦ entry.1 == fileId).map Prod.snd

/-- The files whose key range may contain `searchKey`, by descending `minKey`. -/
def candidateFiles (vs : VersionSet) (searchKey : Bytes) : List ℕ :=
  ((vs.filesByKey.takeWhile fun entry ↦ decide (entry.1 ≤ searchKey)).reverse.filter fun entry ↦
    (vs.fileMeta[entry.2]?).any fun info ↦
      decide (info.maxKey = [] ∨ searchKey ≤ info.maxKey)).map Prod.snd

/-! ## Membership -/

theorem mem_files_alter_insert (levels : ExtTreeMap ℕ (ExtTreeSet ℕ)) (fileId level l i : ℕ) :
    i ∈ ((levels.alter level fun files ↦ some ((files.getD ∅).insert fileId))[l]?.getD ∅) ↔
      i ∈ (levels[l]?.getD ∅) ∨ l = level ∧ i = fileId := by
  rw [ExtTreeMap.getElem?_alter]
  by_cases hl : level = l
  · subst hl
    simp [ExtTreeSet.mem_insert, or_comm, @eq_comm ℕ i fileId]
  · simp [hl, Ne.symm hl]

theorem mem_files_alter_erase (levels : ExtTreeMap ℕ (ExtTreeSet ℕ)) (fileId level l i : ℕ) :
    i ∈ ((levels.alter level fun files ↦ files.bind fun files ↦
        let files := files.erase fileId
        if files.isEmpty then none else some files)[l]?.getD ∅) ↔
      i ∈ (levels[l]?.getD ∅) ∧ ¬(l = level ∧ i = fileId) := by
  rw [ExtTreeMap.getElem?_alter]
  by_cases hl : level = l
  · subst hl
    cases hfiles : levels[level]? with
    | none => simp
    | some files =>
      have herase : i ∈ files.erase fileId ↔ i ∈ files ∧ ¬i = fileId := by
        rw [ExtTreeSet.mem_erase]
        simp [and_comm, @eq_comm ℕ i fileId]
      by_cases hempty : (files.erase fileId).isEmpty
      · have hnot : i ∉ files.erase fileId := by
          rw [ExtTreeSet.isEmpty_iff.mp hempty]
          exact ExtTreeSet.not_mem_empty
        rw [herase] at hnot
        simp only [Option.bind_some, hempty, if_true, Option.getD_none, Option.getD_some,
          true_and, ReflCmp.compare_self]
        exact iff_of_false ExtTreeSet.not_mem_empty hnot
      · simp only [Option.bind_some, hempty, Bool.false_eq_true, if_false, if_true,
          Option.getD_some, true_and, ReflCmp.compare_self]
        exact herase
  · simp [hl, Ne.symm hl]

@[simp] theorem mem_files_addFile (vs : VersionSet) (fileId level : ℕ) (info : FileMeta)
    (l i : ℕ) :
    i ∈ (vs.apply (.addFile fileId level info)).files l ↔
      i ∈ vs.files l ∨ l = level ∧ i = fileId := by
  simp only [files, apply, ExtTreeSet.mem_toList]
  exact mem_files_alter_insert vs.levels fileId level l i

@[simp] theorem mem_files_deleteFile (vs : VersionSet) (fileId level l i : ℕ) :
    i ∈ (vs.apply (.deleteFile fileId level)).files l ↔
      i ∈ vs.files l ∧ ¬(l = level ∧ i = fileId) := by
  simp only [files, apply, ExtTreeSet.mem_toList]
  exact mem_files_alter_erase vs.levels fileId level l i

@[simp] theorem files_nextFileId (vs : VersionSet) (n l : ℕ) :
    (vs.apply (.nextFileId n)).files l = vs.files l := rfl

theorem getElem?_fileMeta_addFile (vs : VersionSet) (fileId level : ℕ) (info : FileMeta) (i : ℕ) :
    (vs.apply (.addFile fileId level info)).fileMeta[i]? =
      if fileId = i then some info else vs.fileMeta[i]? := by
  simp [apply, ExtTreeMap.getElem?_insert]

theorem getElem?_fileMeta_deleteFile (vs : VersionSet) (fileId level i : ℕ) :
    (vs.apply (.deleteFile fileId level)).fileMeta[i]? =
      if fileId = i then none else vs.fileMeta[i]? := by
  simp [apply, ExtTreeMap.getElem?_erase]

theorem nextFileId_le_applied (vs : VersionSet) (edits : List VersionEdit) :
    vs.nextFileId ≤ (vs.applied edits).nextFileId := by
  induction edits generalizing vs with
  | nil => exact le_rfl
  | cons edit edits ih =>
    have hstep : vs.nextFileId ≤ (vs.apply edit).nextFileId := by
      cases edit <;> simp [apply]
    exact hstep.trans (ih (vs.apply edit))

/-! ## Search indexes -/

theorem mem_fileLevel : (i, l) ∈ vs.fileLevel ↔ i ∈ vs.files l := by
  rw [fileLevel, List.mem_insertionSort, List.mem_flatMap]
  constructor
  · rintro ⟨⟨l', files⟩, hlevel, hmem⟩
    obtain ⟨i', hi, heq⟩ := List.mem_map.mp hmem
    obtain ⟨rfl, rfl⟩ := Prod.mk.inj heq
    rw [VersionSet.files, ExtTreeMap.mem_toList_iff_getElem?_eq_some.mp hlevel]
    exact hi
  · intro h
    unfold VersionSet.files at h
    cases hlevel : vs.levels[l]? with
    | none => simp [hlevel] at h
    | some files =>
      rw [hlevel] at h
      exact ⟨(l, files), ExtTreeMap.mem_toList_iff_getElem?_eq_some.mpr hlevel,
        List.mem_map.mpr ⟨i, h, rfl⟩⟩

def entries (vs : VersionSet) : List (ℕ × ℕ) :=
  vs.levels.toList.flatMap fun level ↦ level.2.toList.map fun file ↦ (file, level.1)

theorem mem_entries : (i, l) ∈ vs.entries ↔ i ∈ vs.files l :=
  (List.mem_insertionSort _).symm.trans mem_fileLevel

theorem nodup_files (vs : VersionSet) (level : ℕ) : (vs.files level).Nodup := by
  refine ExtTreeSet.distinct_toList.imp fun hne heq ↦ hne ?_
  rw [heq]
  exact ReflCmp.compare_self

theorem nodup_entries (vs : VersionSet) : vs.entries.Nodup := by
  rw [entries, List.nodup_flatMap]
  constructor
  · intro level hlevel
    have hfiles : level.2.toList = vs.files level.1 := by
      rw [files, ExtTreeMap.mem_toList_iff_getElem?_eq_some.mp hlevel, Option.getD_some]
    rw [hfiles]
    exact (vs.nodup_files level.1).map fun i j heq ↦ congrArg Prod.fst heq
  · refine ExtTreeMap.distinct_keys_toList.imp fun {a b} hne ↦ ?_
    rw [Function.onFun, List.disjoint_left]
    rintro entry ha hb
    obtain ⟨i, -, rfl⟩ := List.mem_map.mp ha
    obtain ⟨j, -, heq⟩ := List.mem_map.mp hb
    apply hne
    rw [LawfulEqCmp.compare_eq_iff_eq]
    exact (congrArg Prod.snd heq).symm

theorem perm_entries_of_level (vs : VersionSet) (level : ℕ) :
    ((vs.entries.filter fun entry ↦ entry.2 = level).map Prod.fst).Perm (vs.files level) := by
  refine (List.perm_ext_iff_of_nodup ?_ (vs.nodup_files level)).mpr fun i ↦ ?_
  · refine (vs.nodup_entries.filter _).map_on fun a ha b hb heq ↦ Prod.ext heq ?_
    exact (of_decide_eq_true (List.mem_filter.mp ha).2).trans
      (of_decide_eq_true (List.mem_filter.mp hb).2).symm
  · rw [← mem_entries, List.mem_map]
    constructor
    · rintro ⟨⟨j, l⟩, hmem, rfl⟩
      obtain ⟨hentry, hlevel⟩ := List.mem_filter.mp hmem
      rwa [← of_decide_eq_true hlevel]
    · intro hmem
      exact ⟨(i, level), List.mem_filter.mpr ⟨hmem, decide_eq_true rfl⟩, rfl⟩

theorem mem_filesByKey {key : Bytes} :
    (key, i) ∈ vs.filesByKey ↔ ∃ info, vs.fileMeta[i]? = some info ∧ info.minKey = key := by
  rw [filesByKey, List.mem_insertionSort, List.mem_map]
  constructor
  · rintro ⟨⟨i', info⟩, hmem, heq⟩
    obtain ⟨rfl, rfl⟩ := Prod.mk.inj heq
    exact ⟨info, ExtTreeMap.mem_toList_iff_getElem?_eq_some.mp hmem, rfl⟩
  · rintro ⟨info, hinfo, rfl⟩
    exact ⟨(i, info), ExtTreeMap.mem_toList_iff_getElem?_eq_some.mpr hinfo, rfl⟩

theorem takeWhile_filesByKey (vs : VersionSet) (key : Bytes) :
    vs.filesByKey.takeWhile (fun entry ↦ decide (entry.1 ≤ key)) =
      vs.filesByKey.filter fun entry ↦ decide (entry.1 ≤ key) := by
  apply StableSort.takeWhile_eq_filter (r := fun a b ↦ a.1 ≤ b.1)
  · exact List.pairwise_insertionSort _ _
  · intro a b hab hb
    exact decide_eq_true (hab.trans (of_decide_eq_true hb))

def InRange (vs : VersionSet) (key : Bytes) (i : ℕ) : Prop :=
  ∃ info, vs.fileMeta[i]? = some info ∧ info.minKey ≤ key ∧ (info.maxKey = [] ∨ key ≤ info.maxKey)

theorem mem_candidateFiles {key : Bytes} : i ∈ vs.candidateFiles key ↔ vs.InRange key i := by
  rw [candidateFiles, takeWhile_filesByKey, List.mem_map]
  constructor
  · rintro ⟨⟨minKey, i'⟩, hmem, rfl⟩
    obtain ⟨hmem, hmax⟩ := List.mem_filter.mp hmem
    obtain ⟨hmem, hmin⟩ := List.mem_filter.mp (List.mem_reverse.mp hmem)
    obtain ⟨info, hinfo, rfl⟩ := mem_filesByKey.mp hmem
    rw [hinfo] at hmax
    exact ⟨info, hinfo, of_decide_eq_true hmin, of_decide_eq_true hmax⟩
  · rintro ⟨info, hinfo, hmin, hmax⟩
    refine ⟨(info.minKey, i), List.mem_filter.mpr ⟨List.mem_reverse.mpr ?_, ?_⟩, rfl⟩
    · exact List.mem_filter.mpr ⟨mem_filesByKey.mpr ⟨info, hinfo, rfl⟩, decide_eq_true hmin⟩
    · rw [hinfo]
      exact decide_eq_true hmax

theorem candidateFiles_eq (vs : VersionSet) (key : Bytes) :
    vs.candidateFiles key = ((vs.fileMeta.toList.filter fun file ↦ file.2.covers key).insertionSort
      fun a b ↦ a.2.minKey ≤ b.2.minKey).reverse.map Prod.fst := by
  have hmap : ∀ l : List (ℕ × FileMeta),
      (l.map fun file ↦ (file.2.minKey, file.1)).insertionSort (fun a b ↦ a.1 ≤ b.1) =
        (l.insertionSort fun a b ↦ a.2.minKey ≤ b.2.minKey).map
          fun file ↦ (file.2.minKey, file.1) := by
    intro l
    symm
    apply List.map_insertionSort
    exact fun _ _ _ _ ↦ Iff.rfl
  rw [candidateFiles, takeWhile_filesByKey, filesByKey, List.filter_reverse, List.filter_filter,
    StableSort.filter_insertionSort, List.filter_map, hmap, ← List.map_reverse, List.map_map]
  have hfilter : vs.fileMeta.toList.filter ((fun entry : Bytes × ℕ ↦
        ((vs.fileMeta[entry.2]?).any fun info ↦ decide (info.maxKey = [] ∨ key ≤ info.maxKey)) &&
          decide (entry.1 ≤ key)) ∘ fun file ↦ (file.2.minKey, file.1)) =
      vs.fileMeta.toList.filter fun file ↦ file.2.covers key := ?_
  · rw [hfilter]
    rfl
  apply List.filter_congr
  rintro ⟨i, info⟩ hmem
  have hinfo : vs.fileMeta[i]? = some info :=
    ExtTreeMap.mem_toList_iff_getElem?_eq_some.mp hmem
  simp [hinfo, FileMeta.covers, Bool.and_comm]

theorem filter_fileMeta_congr {vs' : VersionSet} {p : ℕ → Bool}
    (h : ∀ i, p i → vs'.fileMeta[i]? = vs.fileMeta[i]?) :
    (vs'.fileMeta.toList.filter fun file ↦ p file.1) =
      vs.fileMeta.toList.filter fun file ↦ p file.1 := by
  have hsorted : ∀ vs : VersionSet,
      (vs.fileMeta.toList.filter fun file ↦ p file.1).Pairwise fun a b ↦ a.1 < b.1 := by
    intro vs
    have hkeys := ExtTreeMap.ordered_keys_toList (t := vs.fileMeta)
    exact (hkeys.imp fun h ↦ Nat.compare_eq_lt.mp h).filter _
  apply List.Pairwise.eq_of_mem_iff (hsorted vs') (hsorted vs)
  rintro ⟨i, info⟩
  simp only [List.mem_filter, ExtTreeMap.mem_toList_iff_getElem?_eq_some]
  exact and_congr_left fun hp ↦ by rw [h i hp]

theorem filter_candidateFiles_congr {vs' : VersionSet} {p : ℕ → Bool}
    (h : ∀ i, p i → vs'.fileMeta[i]? = vs.fileMeta[i]?) (key : Bytes) :
    (vs'.candidateFiles key).filter p = (vs.candidateFiles key).filter p := by
  rw [candidateFiles_eq, candidateFiles_eq]
  simp only [List.filter_map, List.filter_reverse, StableSort.filter_insertionSort]
  have hcomm : ∀ vs : VersionSet,
      (vs.fileMeta.toList.filter fun file ↦ file.2.covers key).filter (p ∘ Prod.fst) =
        (vs.fileMeta.toList.filter fun file ↦ p file.1).filter fun file ↦ file.2.covers key := by
    intro vs
    exact List.filter_comm _ _ _
  rw [hcomm, hcomm, filter_fileMeta_congr h]

/-! ## Well-formed version sets -/

/-- Files with metadata are the files of some level, each file has one level,
and every id in use is below the next one. -/
structure WellFormed (vs : VersionSet) : Prop where
  meta_iff : ∀ i, i ∈ vs.fileMeta ↔ ∃ l, i ∈ vs.files l
  level_unique : ∀ {i l l'}, i ∈ vs.files l → i ∈ vs.files l' → l = l'
  fresh : ∀ {i l}, i ∈ vs.files l → i < vs.nextFileId

theorem wellFormed_initial : initial.WellFormed := by
  have hfiles : ∀ l, initial.files l = [] := by
    intro l
    simp [files, initial]
  refine ⟨fun i ↦ ?_, fun {i l l'} h ↦ ?_, fun {i l} h ↦ ?_⟩
  · simp only [hfiles, List.not_mem_nil, exists_false, iff_false]
    exact ExtTreeMap.not_mem_empty
  · simp [hfiles] at h
  · simp [hfiles] at h

section

variable (h : vs.WellFormed)

include h

theorem WellFormed.exists_meta (hi : i ∈ vs.files l) : ∃ info, vs.fileMeta[i]? = some info :=
  Option.isSome_iff_exists.mp
    (ExtTreeMap.mem_iff_isSome_getElem?.mp ((h.meta_iff i).mpr ⟨l, hi⟩))

theorem WellFormed.addFile {fileId : ℕ} (level : ℕ)
    (info : FileMeta) (hfresh : ∀ l, fileId ∉ vs.files l) :
    (vs.apply (.addFile fileId level info)).WellFormed := by
  refine ⟨fun i ↦ ?_, fun {i l l'} hl hl' ↦ ?_, fun {i l} hl ↦ ?_⟩
  · have hmem : i ∈ (vs.apply (.addFile fileId level info)).fileMeta ↔
        fileId = i ∨ i ∈ vs.fileMeta := by
      simp [apply]
    simp only [hmem, h.meta_iff i, mem_files_addFile, exists_or, exists_eq_left,
      @eq_comm ℕ fileId i, or_comm]
  · rw [mem_files_addFile] at hl hl'
    rcases hl with hl | ⟨rfl, rfl⟩ <;> rcases hl' with hl' | ⟨rfl, hi⟩
    · exact h.level_unique hl hl'
    · exact absurd (hi ▸ hl) (hfresh l)
    · exact absurd hl' (hfresh l')
    · rfl
  · rw [mem_files_addFile] at hl
    change i < max vs.nextFileId (fileId + 1)
    rcases hl with hl | ⟨rfl, rfl⟩
    · exact lt_max_of_lt_left (h.fresh hl)
    · exact lt_max_of_lt_right (Nat.lt_succ_self i)

theorem WellFormed.deleteFile {fileId level : ℕ} (honly : ∀ l, fileId ∈ vs.files l → l = level) :
    (vs.apply (.deleteFile fileId level)).WellFormed := by
  refine ⟨fun i ↦ ?_, fun {i l l'} hl hl' ↦ ?_, fun {i l} hl ↦ ?_⟩
  · have hmem : i ∈ (vs.apply (.deleteFile fileId level)).fileMeta ↔
        ¬fileId = i ∧ i ∈ vs.fileMeta := by
      simp [apply]
    simp only [hmem, h.meta_iff i, mem_files_deleteFile]
    constructor
    · rintro ⟨hne, l, hl⟩
      exact ⟨l, hl, fun heq ↦ hne heq.2.symm⟩
    · rintro ⟨l, hl, hne⟩
      refine ⟨?_, l, hl⟩
      rintro rfl
      exact hne ⟨honly l hl, rfl⟩
  · rw [mem_files_deleteFile] at hl hl'
    exact h.level_unique hl.1 hl'.1
  · rw [mem_files_deleteFile] at hl
    exact h.fresh hl.1

theorem WellFormed.nextFileId (n : ℕ) : (vs.apply (.nextFileId n)).WellFormed :=
  ⟨h.meta_iff, h.level_unique, fun hl ↦ lt_max_of_lt_left (h.fresh hl)⟩

theorem WellFormed.fileLevelFor_eq (hi : i ∈ vs.files l) : vs.fileLevelFor i = some l := by
  unfold fileLevelFor
  cases hfind : vs.fileLevel.find? fun entry ↦ entry.1 == i with
  | none =>
    have hnot := List.find?_eq_none.mp hfind (i, l) (mem_fileLevel.mpr hi)
    simp at hnot
  | some entry =>
    obtain ⟨i', l'⟩ := entry
    have hi' : i' = i := by simpa using List.find?_some hfind
    have hmem : i ∈ vs.files l' := hi' ▸ mem_fileLevel.mp (List.mem_of_find?_eq_some hfind)
    rw [Option.map_some, h.level_unique hmem hi]

end

end VersionSet

end HatP
