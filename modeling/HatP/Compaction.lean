import HatP.Engine

/-!
# What a compaction changes

The manifest batch of a compaction adds the outputs to the target level and
removes the inputs; the directory gains the output files and loses the input
files.  Everything later proofs need about a compaction is stated here.
-/

namespace HatP

/-! ## Edits -/

namespace VersionSet

variable {α : Type*}

theorem mem_files_applied_adds (vs : VersionSet) (level : ℕ) (os : List α)
    (fileId : α → ℕ) (info : α → FileMeta) (l i : ℕ) :
    i ∈ (vs.applied (os.map fun o ↦ .addFile (fileId o) level (info o))).files l ↔
      i ∈ vs.files l ∨ l = level ∧ ∃ o ∈ os, fileId o = i := by
  induction os generalizing vs with
  | nil => simp [applied]
  | cons o os ih =>
    have hstep := ih (vs.apply (.addFile (fileId o) level (info o)))
    rw [mem_files_addFile] at hstep
    simp only [applied, List.map_cons, List.foldl_cons] at hstep ⊢
    rw [hstep]
    simp only [List.mem_cons, exists_eq_or_imp, @eq_comm ℕ i (fileId o)]
    tauto

theorem mem_files_applied_deletes (vs : VersionSet) (inputs : List ℕ) (level : ℕ → ℕ) (l i : ℕ) :
    i ∈ (vs.applied (inputs.map fun input ↦ .deleteFile input (level input))).files l ↔
      i ∈ vs.files l ∧ ¬(i ∈ inputs ∧ l = level i) := by
  induction inputs generalizing vs with
  | nil => simp [applied]
  | cons input inputs ih =>
    have hstep := ih (vs.apply (.deleteFile input (level input)))
    rw [mem_files_deleteFile] at hstep
    simp only [applied, List.map_cons, List.foldl_cons] at hstep ⊢
    rw [hstep, List.mem_cons]
    constructor
    · rintro ⟨⟨hi, hne⟩, hnot⟩
      refine ⟨hi, ?_⟩
      rintro ⟨rfl | hmem, hl⟩
      · exact hne ⟨hl, rfl⟩
      · exact hnot ⟨hmem, hl⟩
    · rintro ⟨hi, hnot⟩
      refine ⟨⟨hi, ?_⟩, fun h ↦ hnot ⟨Or.inr h.1, h.2⟩⟩
      rintro ⟨hl, rfl⟩
      exact hnot ⟨Or.inl rfl, hl⟩

theorem WellFormed.applied_adds {vs : VersionSet} (h : vs.WellFormed) (level : ℕ)
    {os : List α} {fileId : α → ℕ} (info : α → FileMeta)
    (hfresh : ∀ o ∈ os, ∀ l, fileId o ∉ vs.files l) (hnodup : (os.map fileId).Nodup) :
    (vs.applied (os.map fun o ↦ .addFile (fileId o) level (info o))).WellFormed := by
  induction os generalizing vs with
  | nil => exact h
  | cons o os ih =>
    obtain ⟨hhead, hnodup⟩ := List.nodup_cons.mp hnodup
    refine ih (h.addFile level (info o) (hfresh o (.head _))) (fun o' ho' l ↦ ?_) hnodup
    rw [mem_files_addFile]
    rintro (hmem | ⟨-, heq⟩)
    · exact hfresh o' (List.mem_cons_of_mem o ho') l hmem
    · exact hhead (List.mem_map.mpr ⟨o', ho', heq⟩)

theorem WellFormed.applied_deletes {vs : VersionSet} (h : vs.WellFormed) {inputs : List ℕ}
    {level : ℕ → ℕ} (honly : ∀ i ∈ inputs, ∀ l, i ∈ vs.files l → l = level i) :
    (vs.applied (inputs.map fun input ↦ .deleteFile input (level input))).WellFormed := by
  induction inputs generalizing vs with
  | nil => exact h
  | cons input inputs ih =>
    refine ih (h.deleteFile (honly input (.head _))) fun i hi l hmem ↦ ?_
    rw [mem_files_deleteFile] at hmem
    exact honly i (List.mem_cons_of_mem input hi) l hmem.1

theorem getElem?_fileMeta_applied_deletes (vs : VersionSet) (inputs : List ℕ) (level : ℕ → ℕ)
    (i : ℕ) :
    (vs.applied (inputs.map fun input ↦ .deleteFile input (level input))).fileMeta[i]? =
      if i ∈ inputs then none else vs.fileMeta[i]? := by
  induction inputs generalizing vs with
  | nil => simp [applied]
  | cons input inputs ih =>
    have hstep := ih (vs.apply (.deleteFile input (level input)))
    rw [getElem?_fileMeta_deleteFile] at hstep
    simp only [applied, List.map_cons, List.foldl_cons] at hstep ⊢
    rw [hstep]
    by_cases hmem : i ∈ inputs
    · simp [hmem]
    · by_cases heq : input = i
      · simp [heq]
      · simp [hmem, heq, Ne.symm heq]

theorem getElem?_fileMeta_applied_adds (vs : VersionSet) (level : ℕ) {os : List α}
    {fileId : α → ℕ} (info : α → FileMeta) (hnodup : (os.map fileId).Nodup) (i : ℕ) :
    (vs.applied (os.map fun o ↦ .addFile (fileId o) level (info o))).fileMeta[i]? =
      ((os.find? fun o ↦ fileId o == i).map info).or vs.fileMeta[i]? := by
  induction os generalizing vs with
  | nil => simp [applied]
  | cons o os ih =>
    obtain ⟨hhead, hnodup⟩ := List.nodup_cons.mp hnodup
    have hstep := ih (vs.apply (.addFile (fileId o) level (info o))) hnodup
    rw [getElem?_fileMeta_addFile] at hstep
    simp only [applied, List.map_cons, List.foldl_cons] at hstep ⊢
    rw [hstep]
    by_cases heq : fileId o = i
    · have hnone : os.find? (fun o' ↦ fileId o' == i) = none := by
        apply List.find?_eq_none.mpr
        intro o' ho' hid
        have hid' : fileId o' = i := by simpa using hid
        exact hhead (List.mem_map.mpr ⟨o', ho', hid'.trans heq.symm⟩)
      simp [hnone, heq]
    · simp [heq]

end VersionSet

namespace Engine

variable {key : Bytes} {chunk : List ℕ} {v : VersionedValue} {index i : ℕ}

variable {e : Engine} {src tgt w : ℕ} {inputs : List ℕ} {chunks : List (List ℕ)}
  {env : ℕ → SstEnv} {i l : ℕ} {e : Engine}

def IsLive (e : Engine) (i : ℕ) : Prop :=
  ∃ l, i ∈ e.versionSet.files l

theorem mem_compactionInputs :
    i ∈ e.compactionInputs src tgt ↔ i ∈ e.versionSet.files src ∨ i ∈ e.versionSet.files tgt := by
  rw [← List.mem_append]
  constructor
  · intro h
    exact (List.mem_insertionSort _).mp ((List.destutter_sublist _ _).subset h)
  · intro h
    obtain ⟨b, hb, rfl⟩ := StableSort.exists_mem_destutter (r := fun a b : ℕ ↦ a = b)
      (fun _ ↦ rfl) (fun _ _ ↦ Eq.symm) ((List.mem_insertionSort (· ≤ ·)).mpr h)
    exact hb

/-! ## Chunks -/

theorem flatten_foldl_splitStep (vs : VersionSet) (maxBytes : ℕ) (inputs : List ℕ)
    (acc : List (List ℕ) × List ℕ × ℕ) :
    (inputs.foldl (splitStep vs maxBytes) acc).1.flatten ++
        (inputs.foldl (splitStep vs maxBytes) acc).2.1 =
      acc.1.flatten ++ acc.2.1 ++ inputs := by
  induction inputs generalizing acc with
  | nil => simp
  | cons input inputs ih =>
    rw [List.foldl_cons, ih]
    unfold splitStep
    dsimp only
    split_ifs <;> simp

/-- Splitting keeps every input, in order, in exactly one chunk. -/
theorem flatten_splitBySize (inputs : List ℕ) (vs : VersionSet) (maxBytes : ℕ) :
    (splitBySize inputs vs maxBytes).flatten = inputs := by
  have h := flatten_foldl_splitStep vs maxBytes inputs ([], [], 0)
  unfold splitBySize
  dsimp only
  split_ifs with hnil
  · simpa [hnil] using h
  · simpa using h

/-! ## Outputs -/

theorem mem_chunkOutputs {o : Output} :
    o ∈ e.chunkOutputs w chunks env ↔ ∃ index chunk, chunks[index]? = some chunk ∧
      o = ⟨e.versionSet.nextFileId + index, e.compactChunk chunk w, env index⟩ := by
  rw [chunkOutputs, List.mem_mapIdx]
  constructor
  · rintro ⟨index, hlt, rfl⟩
    exact ⟨index, chunks[index], List.getElem?_eq_getElem hlt, rfl⟩
  · rintro ⟨index, chunk, hget, rfl⟩
    obtain ⟨hlt, rfl⟩ := List.getElem?_eq_some_iff.mp hget
    exact ⟨index, hlt, rfl⟩

theorem fileIds_chunkOutputs :
    (e.chunkOutputs w chunks env).map Output.fileId =
      (List.range chunks.length).map (e.versionSet.nextFileId + ·) := by
  apply List.ext_getElem
  · simp [chunkOutputs]
  · intro n h₁ h₂
    simp [chunkOutputs]

theorem nodup_fileIds_chunkOutputs : ((e.chunkOutputs w chunks env).map Output.fileId).Nodup := by
  rw [fileIds_chunkOutputs]
  exact List.nodup_range.map fun a b h ↦ by simpa using h

/-! ## The state after a compaction -/

theorem versionSet_compactChunks :
    (e.compactChunks src tgt w inputs chunks env).versionSet =
      ((e.versionSet.applied ((e.chunkOutputs w chunks env).map fun o ↦
        .addFile o.fileId tgt (handleMeta o.rows o.env))).apply
          (.nextFileId (((e.chunkOutputs w chunks env).map Output.fileId).foldl max 0 + 1))).applied
        (inputs.map fun input ↦ .deleteFile input
          (if input ∈ e.versionSet.files src then src else tgt)) := by
  simp only [compactChunks, commitCompaction, compactionEdits, VersionSet.applied,
    List.foldl_append, List.foldl_cons]

section Batch

variable (hwf : e.versionSet.WellFormed)
  (hinputs : ∀ i ∈ inputs, i ∈ e.versionSet.files src ∨ i ∈ e.versionSet.files tgt)

include hwf

theorem output_not_mem_files {o : Output} (ho : o ∈ e.chunkOutputs w chunks env) (l : ℕ) :
    o.fileId ∉ e.versionSet.files l := by
  obtain ⟨index, chunk, -, rfl⟩ := mem_chunkOutputs.mp ho
  intro hmem
  have hlt : e.versionSet.nextFileId + index < e.versionSet.nextFileId := hwf.fresh hmem
  omega

include hinputs

theorem input_lt_nextFileId (hi : i ∈ inputs) : i < e.versionSet.nextFileId := by
  rcases hinputs i hi with h | h
  · exact hwf.fresh h
  · exact hwf.fresh h

theorem input_level (hi : i ∈ inputs) (hl : i ∈ e.versionSet.files l) :
    l = if i ∈ e.versionSet.files src then src else tgt := by
  split_ifs with hsrc
  · exact hwf.level_unique hl hsrc
  · exact hwf.level_unique hl ((hinputs i hi).resolve_left hsrc)

theorem mem_files_compactChunks :
    i ∈ (e.compactChunks src tgt w inputs chunks env).versionSet.files l ↔
      (i ∈ e.versionSet.files l ∧ i ∉ inputs) ∨
        l = tgt ∧ ∃ index < chunks.length, i = e.versionSet.nextFileId + index := by
  have houtputs : (∃ o ∈ e.chunkOutputs w chunks env, o.fileId = i) ↔
      ∃ index < chunks.length, i = e.versionSet.nextFileId + index := by
    rw [← List.mem_map, fileIds_chunkOutputs, List.mem_map]
    simp [eq_comm]
  rw [versionSet_compactChunks, VersionSet.mem_files_applied_deletes, VersionSet.files_nextFileId,
    VersionSet.mem_files_applied_adds, houtputs]
  constructor
  · rintro ⟨hl | ⟨rfl, index, hlt, rfl⟩, hnot⟩
    · exact Or.inl ⟨hl, fun hi ↦ hnot ⟨hi, input_level hwf hinputs hi hl⟩⟩
    · exact Or.inr ⟨rfl, index, hlt, rfl⟩
  · rintro (⟨hl, hi⟩ | ⟨rfl, index, hlt, rfl⟩)
    · exact ⟨Or.inl hl, fun h ↦ hi h.1⟩
    · refine ⟨Or.inr ⟨rfl, index, hlt, rfl⟩, fun h ↦ ?_⟩
      have := input_lt_nextFileId hwf hinputs h.1
      omega

theorem wellFormed_compactChunks :
    (e.compactChunks src tgt w inputs chunks env).versionSet.WellFormed := by
  rw [versionSet_compactChunks]
  refine ((hwf.applied_adds tgt _ (fun o ho ↦ output_not_mem_files hwf ho)
    nodup_fileIds_chunkOutputs).nextFileId _).applied_deletes fun i hi l hl ↦ ?_
  rw [VersionSet.files_nextFileId, VersionSet.mem_files_applied_adds] at hl
  rcases hl with hl | ⟨-, o, ho, rfl⟩
  · exact input_level hwf hinputs hi hl
  · obtain ⟨index, chunk, -, rfl⟩ := mem_chunkOutputs.mp ho
    have := input_lt_nextFileId hwf hinputs hi
    simp at this

end Batch

theorem getElem?_foldl_erase {α : Type*} (inputs : List ℕ) (m : Std.ExtTreeMap ℕ α) (i : ℕ) :
    (inputs.foldl (fun m input ↦ m.erase input) m)[i]? = if i ∈ inputs then none else m[i]? := by
  induction inputs generalizing m with
  | nil => simp
  | cons input inputs ih =>
    rw [List.foldl_cons, ih, Std.ExtTreeMap.getElem?_erase]
    by_cases hmem : i ∈ inputs
    · simp [hmem]
    · by_cases heq : input = i
      · simp [heq]
      · simp [hmem, heq, Ne.symm heq]

theorem getElem?_foldl_insert {os : List Output} (hnodup : (os.map Output.fileId).Nodup)
    (ssts : Std.ExtTreeMap ℕ SstFile) (i : ℕ) :
    (os.foldl (fun ssts o ↦ ssts.insert o.fileId (.write o.rows o.env)) ssts)[i]? =
      ((os.find? fun o ↦ o.fileId == i).map fun o ↦ SstFile.write o.rows o.env).or ssts[i]? := by
  induction os generalizing ssts with
  | nil => simp
  | cons o os ih =>
    obtain ⟨hhead, hnodup⟩ := List.nodup_cons.mp hnodup
    rw [List.foldl_cons, ih hnodup, Std.ExtTreeMap.getElem?_insert]
    by_cases heq : o.fileId = i
    · have hnone : os.find? (fun o' ↦ o'.fileId == i) = none := by
        apply List.find?_eq_none.mpr
        intro o' ho' hid
        have hid : o'.fileId = i := by simpa using hid
        exact hhead (List.mem_map.mpr ⟨o', ho', hid.trans heq.symm⟩)
      simp [hnone, heq]
    · simp [heq]

theorem find?_chunkOutputs_of_lt (h : i < e.versionSet.nextFileId) :
    (e.chunkOutputs w chunks env).find? (fun o ↦ o.fileId == i) = none := by
  apply List.find?_eq_none.mpr
  intro o ho hid
  obtain ⟨index, chunk, -, rfl⟩ := mem_chunkOutputs.mp ho
  have hid : e.versionSet.nextFileId + index = i := by simpa using hid
  omega

theorem find?_chunkOutputs (h : chunks[index]? = some chunk) :
    (e.chunkOutputs w chunks env).find? (fun o ↦ o.fileId == e.versionSet.nextFileId + index) =
      some ⟨e.versionSet.nextFileId + index, e.compactChunk chunk w, env index⟩ := by
  have hmem : (⟨e.versionSet.nextFileId + index, e.compactChunk chunk w, env index⟩ : Output) ∈
      e.chunkOutputs w chunks env := mem_chunkOutputs.mpr ⟨index, chunk, h, rfl⟩
  cases hfind : (e.chunkOutputs w chunks env).find?
      (fun o ↦ o.fileId == e.versionSet.nextFileId + index) with
  | none => exact absurd (List.find?_eq_none.mp hfind _ hmem) (by simp)
  | some o =>
    have hid : o.fileId = e.versionSet.nextFileId + index := by
      simpa using List.find?_some hfind
    rw [List.inj_on_of_nodup_map nodup_fileIds_chunkOutputs
      (List.mem_of_find?_eq_some hfind) hmem hid]

theorem ssts_compactChunks (i : ℕ) :
    (e.compactChunks src tgt w inputs chunks env).ssts[i]? =
      if i ∈ inputs then none
      else (((e.chunkOutputs w chunks env).find? fun o ↦ o.fileId == i).map fun o ↦
        SstFile.write o.rows o.env).or e.ssts[i]? := by
  rw [← getElem?_foldl_insert nodup_fileIds_chunkOutputs]
  exact getElem?_foldl_erase inputs _ i

theorem ssts_compactChunks_kept (hi : i ∉ inputs) (hlt : i < e.versionSet.nextFileId) :
    (e.compactChunks src tgt w inputs chunks env).ssts[i]? = e.ssts[i]? := by
  rw [ssts_compactChunks, if_neg hi, find?_chunkOutputs_of_lt hlt]
  rfl

theorem ssts_compactChunks_output
    (hinputs : ∀ i ∈ inputs, i < e.versionSet.nextFileId) (h : chunks[index]? = some chunk) :
    (e.compactChunks src tgt w inputs chunks env).ssts[e.versionSet.nextFileId + index]? =
      some (.write (e.compactChunk chunk w) (env index)) := by
  have hnot : e.versionSet.nextFileId + index ∉ inputs := by
    intro hmem
    have := hinputs _ hmem
    omega
  rw [ssts_compactChunks, if_neg hnot, find?_chunkOutputs h]
  rfl

theorem fileMeta_compactChunks (i : ℕ) :
    (e.compactChunks src tgt w inputs chunks env).versionSet.fileMeta[i]? =
      if i ∈ inputs then none
      else (((e.chunkOutputs w chunks env).find? fun o ↦ o.fileId == i).map fun o ↦
        handleMeta o.rows o.env).or e.versionSet.fileMeta[i]? := by
  rw [versionSet_compactChunks, VersionSet.getElem?_fileMeta_applied_deletes,
    ← VersionSet.getElem?_fileMeta_applied_adds e.versionSet tgt _ nodup_fileIds_chunkOutputs]
  rfl

def liveVersions (e : Engine) (key : Bytes) : Set VersionedValue :=
  {v | ∃ i, e.IsLive i ∧ v ∈ versionsOf (e.rowsOf i) key}

def liveFiles (e : Engine) : List ℕ := e.versionSet.fileLevel.map Prod.fst

theorem mem_liveFiles : i ∈ e.liveFiles ↔ e.IsLive i := by
  simp [liveFiles, IsLive, VersionSet.mem_fileLevel]

theorem liveVersions_eq (e : Engine) (key : Bytes) : e.liveVersions key =
    {v | v ∈ e.liveFiles.flatMap fun i ↦ versionsOf (e.rowsOf i) key} := by
  ext v
  simp [liveVersions, mem_liveFiles]

def liveStamps (e : Engine) (key : Bytes) : Set (ℕ × Option Bytes) :=
  VersionedValue.stamp '' e.liveVersions key

/-- Versions of a key with one `beginTs` are copies of one version. -/
def Copies (e : Engine) : Prop :=
  ∀ key, ∀ u ∈ e.liveVersions key, ∀ v ∈ e.liveVersions key, u.beginTs = v.beginTs →
    u.value = v.value

/-! ## The versions of a chunk -/

theorem mem_versionsOf_chunk :
    v ∈ versionsOf (chunk.flatMap fun i ↦ readAll (e.rowsOf i)) key ↔
      ∃ i ∈ chunk, ∃ u ∈ versionsOf (e.rowsOf i) key, u.stored = v := by
  rw [mem_versionsOf, List.mem_flatMap]
  simp only [← mem_versionsOf, versionsOf_readAll, List.mem_map]

theorem stamp_mem_compactChunk {w : ℕ}
    {p : ℕ × Option Bytes} (h : p ∈ stamps (versionsOf (e.compactChunk chunk w) key)) :
    ∃ i ∈ chunk, p ∈ stamps (versionsOf (e.rowsOf i) key) := by
  obtain ⟨⟨v, hv, rfl⟩, -⟩ := (mem_stamps_dedupSuperseded _ w key p).mp h
  obtain ⟨i, hi, u, hu, rfl⟩ := mem_versionsOf_chunk.mp (mem_versionsOf_of_sortDedup hv)
  exact ⟨i, hi, u, hu, rfl⟩

/-- A version without a successor at or before the watermark stays, or a copy
of it. -/
theorem exists_mem_compactChunk {w : ℕ} (hi : i ∈ chunk) (hv : v ∈ versionsOf (e.rowsOf i) key)
    (hkeep : ∀ j ∈ chunk, ∀ u ∈ versionsOf (e.rowsOf j) key, v.beginTs < u.beginTs →
      w < u.beginTs) :
    ∃ j ∈ chunk, ∃ u ∈ versionsOf (e.rowsOf j) key, u.beginTs = v.beginTs ∧
      u.stamp ∈ stamps (versionsOf (e.compactChunk chunk w) key) := by
  have hstored : v.stored ∈ versionsOf (chunk.flatMap fun i ↦ readAll (e.rowsOf i)) key :=
    mem_versionsOf_chunk.mpr ⟨i, hi, v, hv, rfl⟩
  obtain ⟨x, hx, hxv⟩ := exists_versionsOf_sortDedup hstored
  obtain ⟨j, hj, u, hu, rfl⟩ := mem_versionsOf_chunk.mp (mem_versionsOf_of_sortDedup hx)
  have huv : u.beginTs = v.beginTs := hxv
  refine ⟨j, hj, u, hu, huv, (mem_stamps_dedupSuperseded _ w key _).mpr ⟨⟨_, hx, rfl⟩, ?_⟩⟩
  intro y hy hlt
  obtain ⟨j', hj', u', hu', rfl⟩ := mem_versionsOf_chunk.mp hy
  have hlt : u.beginTs < u'.beginTs := hlt
  exact hkeep j' hj' u' hu' (huv ▸ hlt)

/-! ## Live versions after a compaction -/

section Compaction

variable {e : Engine} {src tgt w : ℕ} {chunks : List (List ℕ)} {env : ℕ → SstEnv}

abbrev merged (e : Engine) (src tgt w : ℕ) (chunks : List (List ℕ)) (env : ℕ → SstEnv) : Engine :=
  e.compactChunks src tgt w (e.compactionInputs src tgt) chunks env

/-- `chunks` split the inputs of a compaction. -/
def Splits (e : Engine) (src tgt : ℕ) (chunks : List (List ℕ)) : Prop :=
  ∀ i, i ∈ e.compactionInputs src tgt ↔ ∃ chunk ∈ chunks, i ∈ chunk

theorem isLive_of_mem_chunk (hsplit : e.Splits src tgt chunks)
    (hchunk : chunk ∈ chunks) (hi : i ∈ chunk) : e.IsLive i := by
  rcases mem_compactionInputs.mp ((hsplit i).mpr ⟨chunk, hchunk, hi⟩) with h | h
  · exact ⟨src, h⟩
  · exact ⟨tgt, h⟩

theorem rowsOf_eq_of_ssts {e e' : Engine} {j : ℕ} (h : e'.ssts[i]? = e.ssts[j]?) :
    e'.rowsOf i = e.rowsOf j := by
  rw [rowsOf, rowsOf, h]

variable (hwf : e.versionSet.WellFormed)

include hwf

theorem inputs_lt : ∀ i ∈ e.compactionInputs src tgt, i < e.versionSet.nextFileId :=
  fun _ hi ↦ input_lt_nextFileId hwf (fun _ h ↦ mem_compactionInputs.mp h) hi

theorem rowsOf_output (h : chunks[index]? = some chunk) :
    (e.merged src tgt w chunks env).rowsOf
      (e.versionSet.nextFileId + index) = e.compactChunk chunk w := by
  rw [rowsOf, ssts_compactChunks_output (inputs_lt hwf) h]
  rfl

theorem isLive_compactChunks :
    (e.merged src tgt w chunks env).IsLive i ↔ (e.IsLive i ∧ i ∉ e.compactionInputs src tgt) ∨
        ∃ index < chunks.length, i = e.versionSet.nextFileId + index := by
  simp only [IsLive, mem_files_compactChunks hwf fun _ h ↦ mem_compactionInputs.mp h]
  constructor
  · rintro ⟨l, ⟨hl, hi⟩ | ⟨-, h⟩⟩
    · exact Or.inl ⟨⟨l, hl⟩, hi⟩
    · exact Or.inr h
  · rintro (⟨⟨l, hl⟩, hi⟩ | h)
    · exact ⟨l, Or.inl ⟨hl, hi⟩⟩
    · exact ⟨tgt, Or.inr ⟨rfl, h⟩⟩

theorem mem_liveVersions_compactChunks :
    v ∈ (e.merged src tgt w chunks env).liveVersions key ↔
      (∃ i, e.IsLive i ∧ i ∉ e.compactionInputs src tgt ∧ v ∈ versionsOf (e.rowsOf i) key) ∨
        ∃ chunk ∈ chunks, v ∈ versionsOf (e.compactChunk chunk w) key := by
  constructor
  · rintro ⟨i, hlive, hv⟩
    rcases (isLive_compactChunks hwf).mp hlive with ⟨⟨l, hl⟩, hi⟩ | ⟨index, hlt, rfl⟩
    · rw [rowsOf_eq_of_ssts (ssts_compactChunks_kept hi (hwf.fresh hl))] at hv
      exact Or.inl ⟨i, ⟨l, hl⟩, hi, hv⟩
    · rw [rowsOf_output hwf (List.getElem?_eq_getElem hlt)] at hv
      exact Or.inr ⟨chunks[index], List.getElem_mem hlt, hv⟩
  · rintro (⟨i, ⟨l, hl⟩, hi, hv⟩ | ⟨chunk, hchunk, hv⟩)
    · refine ⟨i, (isLive_compactChunks hwf).mpr (Or.inl ⟨⟨l, hl⟩, hi⟩), ?_⟩
      rwa [rowsOf_eq_of_ssts (ssts_compactChunks_kept hi (hwf.fresh hl))]
    · obtain ⟨index, hlt, rfl⟩ := List.mem_iff_getElem.mp hchunk
      refine ⟨e.versionSet.nextFileId + index,
        (isLive_compactChunks hwf).mpr (Or.inr ⟨index, hlt, rfl⟩), ?_⟩
      rwa [rowsOf_output hwf (List.getElem?_eq_getElem hlt)]

theorem liveStamps_compactChunks_subset (hsplit : e.Splits src tgt chunks) (key : Bytes) :
    (e.merged src tgt w chunks env).liveStamps key ⊆ e.liveStamps key := by
  rintro p ⟨v, hv, rfl⟩
  rcases (mem_liveVersions_compactChunks hwf).mp hv with ⟨i, hlive, -, hv⟩ | ⟨chunk, hchunk, hv⟩
  · exact ⟨v, ⟨i, hlive, hv⟩, rfl⟩
  · obtain ⟨i, hi, u, hu, hstamp⟩ := stamp_mem_compactChunk (stamp_mem_stamps hv)
    exact ⟨u, ⟨i, isLive_of_mem_chunk hsplit hchunk hi, hu⟩, hstamp⟩

theorem stamp_kept_compactChunks (hsplit : e.Splits src tgt chunks) (hcopies : e.Copies)
    {p : ℕ × Option Bytes} (hp : p ∈ e.liveStamps key)
    (hkeep : ∀ q ∈ e.liveStamps key, p.1 < q.1 → w < q.1) :
    p ∈ (e.merged src tgt w chunks env).liveStamps key := by
  obtain ⟨v, ⟨i, hlive, hv⟩, rfl⟩ := hp
  by_cases hi : i ∈ e.compactionInputs src tgt
  · obtain ⟨chunk, hchunk, hi⟩ := (hsplit i).mp hi
    have hlive' : ∀ j ∈ chunk, e.IsLive j :=
      fun j hj ↦ isLive_of_mem_chunk hsplit hchunk hj
    obtain ⟨j, hj, u, hu, huv, x, hx, hxu⟩ := exists_mem_compactChunk (w := w) hi hv
      fun j hj u hu hlt ↦ hkeep u.stamp ⟨u, ⟨j, hlive' j hj, hu⟩, rfl⟩ hlt
    have hvalue := hcopies key u ⟨j, hlive' j hj, hu⟩ v ⟨i, hlive, hv⟩ huv
    have hstamp : u.stamp = v.stamp := Prod.ext huv hvalue
    refine ⟨x, (mem_liveVersions_compactChunks hwf).mpr (Or.inr ⟨chunk, hchunk, hx⟩), ?_⟩
    exact hxu.trans hstamp
  · exact ⟨v, (mem_liveVersions_compactChunks hwf).mpr (Or.inl ⟨i, hlive, hi, hv⟩), rfl⟩

end Compaction

end Engine

end HatP
