import HatP.EarlyExit
import HatP.Manifest.Batches

/-!
# Read pruning

A read narrows its search to the files whose recorded range may contain the key,
by a binary search over the files sorted by `min_key`, and looks up the level of
each by another one.  In a version set that the engine's batches built, whole or
cut off by a crash, neither loses a file.
-/

namespace HatP

open BinarySearch

namespace VersionSet

def candidateFilesSearch (vs : VersionSet) (searchKey : Bytes) : List ℕ :=
  if vs.filesByKey.isEmpty then []
  else
    let idx := listPartitionPoint (fun entry ↦ decide (entry.1 ≤ searchKey)) vs.filesByKey
    ((vs.filesByKey.take idx).reverse.filter fun entry ↦ (vs.fileMeta[entry.2]?).any fun info ↦
      decide (info.maxKey = [] ∨ searchKey ≤ info.maxKey)).map Prod.snd

def fileLevelForSearch (vs : VersionSet) (fileId : ℕ) : Option ℕ :=
  (listSearch (fun entry ↦ compare entry.1 fileId) vs.fileLevel).map Prod.snd

theorem candidateFilesSearch_eq (vs : VersionSet) (searchKey : Bytes) :
    vs.candidateFilesSearch searchKey = vs.candidateFiles searchKey := by
  have hsorted : vs.filesByKey.Pairwise fun a b ↦ decide (b.1 ≤ searchKey) = true →
      decide (a.1 ≤ searchKey) = true := by
    have hkeys : vs.filesByKey.Pairwise fun a b ↦ a.1 ≤ b.1 := List.pairwise_insertionSort _ _
    exact hkeys.imp fun hab hb ↦ decide_eq_true (hab.trans (of_decide_eq_true hb))
  rw [candidateFilesSearch, candidateFiles]
  split
  · rename_i hempty
    rw [List.isEmpty_iff.mp hempty]
    rfl
  · dsimp only
    rw [take_listPartitionPoint hsorted]

theorem WellFormed.fileLevelForSearch_eq {vs : VersionSet} (h : vs.WellFormed) {i l : ℕ}
    (hi : i ∈ vs.files l) : vs.fileLevelForSearch i = some l := by
  have hsorted : vs.fileLevel.Pairwise fun a b ↦
      (compare b.1 i = .lt → compare a.1 i = .lt) ∧
        (compare a.1 i = .gt → compare b.1 i = .gt) := by
    have hids : vs.fileLevel.Pairwise fun a b ↦ a.1 ≤ b.1 := List.pairwise_insertionSort _ _
    refine hids.imp fun hab ↦ ⟨fun hb ↦ ?_, fun ha ↦ ?_⟩
    · exact Nat.compare_eq_lt.mpr (hab.trans_lt (Nat.compare_eq_lt.mp hb))
    · exact Nat.compare_eq_gt.mpr ((Nat.compare_eq_gt.mp ha).trans_le hab)
  obtain ⟨⟨i', l'⟩, hfound⟩ :=
    exists_listSearch hsorted (mem_fileLevel.mpr hi) (Nat.compare_eq_eq.mpr rfl)
  obtain ⟨hmem, heq⟩ := listSearch_eq_some hfound
  obtain rfl : i' = i := Nat.compare_eq_eq.mp heq
  rw [fileLevelForSearch, hfound, Option.map_some, h.level_unique (mem_fileLevel.mp hmem) hi]

/-- The version sets that batches of the engine lead to.  A crash may have cut a
batch off. -/
inductive EngineBuilt : VersionSet → Prop
  | initial : EngineBuilt .initial
  | batch {vs : VersionSet} {b : EngineBatch} {part : List VersionEdit} (built : EngineBuilt vs)
      (issued : b.Issued vs) (leading : part <+: b.edits vs) : EngineBuilt (vs.applied part)

theorem EngineBuilt.wellFormed {vs : VersionSet} (h : EngineBuilt vs) : vs.WellFormed := by
  induction h with
  | initial => exact wellFormed_initial
  | batch _ issued leading ih => exact issued.wellFormed_part ih leading

/-- A live file that holds the key is among the candidates, passes the range
check and has the level it lives at; and only live files are candidates. -/
theorem pruning_hides_no_key (vs : VersionSet) (hbuilt : EngineBuilt vs)
    (rows : ℕ → List VersionedRow)
    (hmeta : ∀ i l info, i ∈ vs.files l → vs.fileMeta[i]? = some info → info.Describes (rows i))
    (key : Bytes) :
    (∀ i l, i ∈ vs.files l → (∃ row ∈ rows i, row.key = key) →
      i ∈ vs.candidateFilesSearch key ∧
      (∀ e : Engine, e.versionSet = vs → e.rangeMayContain key i = true) ∧
      vs.fileLevelForSearch i = some l) ∧
    ∀ i ∈ vs.candidateFilesSearch key, ∃ l, i ∈ vs.files l := by
  have hwf := hbuilt.wellFormed
  rw [candidateFilesSearch_eq]
  constructor
  · rintro i l hi ⟨row, hrow, rfl⟩
    obtain ⟨info, hinfo⟩ := hwf.exists_meta hi
    have hdescribes := hmeta i l info hi hinfo
    have hcandidate : i ∈ vs.candidateFiles row.key := mem_candidateFiles.mpr
      ⟨info, hinfo, hdescribes.minKey_le hrow, Or.inr (hdescribes.le_maxKey hrow)⟩
    refine ⟨hcandidate, ?_, hwf.fileLevelForSearch_eq hi⟩
    rintro e rfl
    rw [Engine.rangeMayContain, hinfo]
    exact decide_eq_true
      (Or.inr (Or.inr ⟨hdescribes.minKey_le hrow, hdescribes.le_maxKey hrow⟩))
  · intro i hi
    obtain ⟨info, hinfo, -⟩ := mem_candidateFiles.mp hi
    apply (hwf.meta_iff i).mp
    rw [Std.ExtTreeMap.mem_iff_isSome_getElem?, hinfo]
    rfl

/-- A flushed file whose first key is empty. -/
theorem pruning_hides_no_key_emptyBound :
    let rows : List VersionedRow := [⟨[], .live [1] 1 1⟩, ⟨[107], .live [2] 1 1⟩]
    let vs := initial.applied ((EngineBatch.flush rows ⟨100, 0, none, true⟩).edits initial)
    EngineBuilt vs ∧
      (∀ i l info, i ∈ vs.files l → vs.fileMeta[i]? = some info →
        info.Describes rows) ∧
      0 ∈ vs.candidateFilesSearch [] ∧ vs.fileLevelForSearch 0 = some 0 := by
  intro rows vs
  have hbuilt : EngineBuilt vs :=
    .batch (b := .flush rows ⟨100, 0, none, true⟩) .initial (List.cons_ne_nil _ _) List.prefix_rfl
  have hmeta : ∀ i l info, i ∈ vs.files l → vs.fileMeta[i]? = some info → info.Describes rows := by
    intro i l info _ hinfo
    have hadded : (initial.apply (.addFile 0 0 (handleMeta rows ⟨100, 0, none, true⟩))).fileMeta[i]?
        = some info := hinfo
    rw [getElem?_fileMeta_addFile] at hadded
    split at hadded
    · cases hadded
      exact ⟨by decide, rfl, rfl⟩
    · simp [initial] at hadded
  have hfile : 0 ∈ vs.files 0 := by decide +kernel
  obtain ⟨hcandidate, -, hlevel⟩ := (pruning_hides_no_key vs hbuilt (fun _ ↦ rows) hmeta []).1 0 0
    hfile ⟨_, .head _, rfl⟩
  exact ⟨hbuilt, hmeta, hcandidate, hlevel⟩

end VersionSet

end HatP
