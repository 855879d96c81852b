import HatP.Invariant
import HatP.Manifest.Log

/-!
# The batches of the engine

A flush, a compaction and the drop of a table each append one batch of edits.
While no append fails, the file and the memory describe the same version set.
A crash may leave any leading part of the last batch; the part of a flush is
harmless, but the part of a compaction shows outputs next to inputs.
-/

namespace HatP

open FramedLog Transition

/-- What the engine appends in one call of `append_batch`. -/
inductive EngineBatch
  | flush (rows : List VersionedRow) (env : SstEnv)
  | compaction (inputs : List ℕ) (sourceLevel targetLevel : ℕ) (outputs : List Engine.Output)
  | dropTable (tablePrefix : Bytes)
  | undropTable (tablePrefix : Bytes)

namespace EngineBatch

def edits (vs : VersionSet) : EngineBatch → List VersionEdit
  | flush rows env =>
    [.addFile vs.nextFileId 0 (handleMeta rows env), .nextFileId (vs.nextFileId + 1)]
  | compaction inputs sourceLevel targetLevel outputs =>
    Engine.compactionEdits vs inputs sourceLevel targetLevel outputs
  | dropTable tablePrefix => [.droppedPrefix tablePrefix]
  | undropTable tablePrefix => [.undroppedPrefix tablePrefix]

/-- The inputs of a compaction are the files of its two levels, and its outputs
have the next free ids. -/
def Issued (vs : VersionSet) : EngineBatch → Prop
  | flush rows _ => rows ≠ []
  | compaction inputs sourceLevel targetLevel outputs =>
    (inputs.Nodup ∧ 2 ≤ inputs.length ∧
      ∀ i, i ∈ inputs ↔ i ∈ vs.files sourceLevel ∨ i ∈ vs.files targetLevel) ∧
    outputs ≠ [] ∧
      outputs.map Engine.Output.fileId = (List.range outputs.length).map (vs.nextFileId + ·)
  | dropTable _ => True
  | undropTable _ => True

def ChangesFiles : EngineBatch → Prop
  | flush _ _ => True
  | compaction _ _ _ _ => True
  | dropTable _ => False
  | undropTable _ => False

def IsFlush : EngineBatch → Prop
  | flush _ _ => True
  | compaction _ _ _ _ => False
  | dropTable _ => False
  | undropTable _ => False

end EngineBatch

/-! ## The engine issues these batches -/

namespace Engine

variable {e : Engine}

theorem nodup_compactionInputs (src tgt : ℕ) : (e.compactionInputs src tgt).Nodup := by
  have hsorted := List.pairwise_insertionSort (· ≤ ·)
    (e.versionSet.files src ++ e.versionSet.files tgt)
  exact StableSort.nodup_of_isChain_ne (hsorted.sublist (List.destutter_sublist _ _))
    (List.isChain_destutter _ _)

theorem compactChunks_issued {src tgt w : ℕ} {chunks : List (List ℕ)} {env : ℕ → SstEnv}
    (hinputs : 2 ≤ (e.compactionInputs src tgt).length) (hchunks : chunks ≠ []) :
    ∃ b : EngineBatch, (b.Issued e.versionSet ∧ b.ChangesFiles) ∧
      (e.merged src tgt w chunks env).versionSet = e.versionSet.applied (b.edits e.versionSet) := by
  have hlength : (e.chunkOutputs w chunks env).length = chunks.length := by
    simp [chunkOutputs]
  refine ⟨.compaction (e.compactionInputs src tgt) src tgt (e.chunkOutputs w chunks env),
    ⟨⟨⟨nodup_compactionInputs src tgt, hinputs, fun i ↦ mem_compactionInputs⟩, ?_, ?_⟩, trivial⟩,
      rfl⟩
  · exact List.ne_nil_of_length_pos (hlength ▸ List.length_pos_of_ne_nil hchunks)
  · rw [fileIds_chunkOutputs, hlength]

/-- Whatever a call changes in the version set is the effect of one batch. -/
theorem exec_versionSet (op : Op) :
    (e.exec op).versionSet = e.versionSet ∨
      ∃ b : EngineBatch, (b.Issued e.versionSet ∧ b.ChangesFiles) ∧
        (e.exec op).versionSet = e.versionSet.applied (b.edits e.versionSet) := by
  cases op with
  | write txId ms =>
    rcases e.exec_write txId ms with heq | heq
    · exact .inl (by rw [heq])
    · exact .inl (by rw [heq]; rfl)
  | flush env =>
    by_cases hne : e.memtable.drainInto = []
    · exact .inl (by rw [exec, flush_of_nil hne])
    · exact .inr ⟨.flush e.memtable.drainInto env, ⟨hne, trivial⟩, versionSet_flush hne⟩
  | compact src tgt env =>
    rcases e.exec_compact src tgt env with heq | ⟨hlen, heq⟩
    · exact .inl (by rw [heq])
    · rw [heq]
      exact .inr (compactChunks_issued hlen (List.cons_ne_nil _ _))
  | subCompact src tgt w env =>
    rcases e.exec_subCompact src tgt w env with heq | ⟨hlen, heq⟩
    · exact .inl (by rw [heq])
    · rw [heq]
      refine .inr (compactChunks_issued hlen fun hnil ↦ ?_)
      have hflatten := flatten_splitBySize (e.compactionInputs src tgt) e.versionSet
        maxChunkBytes
      rw [hnil, List.flatten_nil] at hflatten
      rw [← hflatten] at hlen
      exact absurd hlen (by decide)
  | get key s =>
    obtain ⟨cache, heq⟩ := e.get_snd key s
    exact .inl (by rw [exec, heq])

/-- A history changes the version set by issued batches alone. -/
theorem versionSet_eq_run_batches (e : Engine) (ops : List Op) :
    ∃ batches : List EngineBatch,
      StepsMeet (fun vs b ↦ some (vs.applied (b.edits vs)))
        (fun vs b ↦ b.Issued vs ∧ b.ChangesFiles) e.versionSet batches ∧
      run (fun vs b ↦ some (vs.applied (b.edits vs))) e.versionSet batches =
        some (ops.foldl exec e).versionSet := by
  induction ops generalizing e with
  | nil => exact ⟨[], trivial, rfl⟩
  | cons op ops ih =>
    obtain ⟨batches, hissued, hrun⟩ := ih (e.exec op)
    rcases e.exec_versionSet op with heq | ⟨b, hb, heq⟩
    · rw [heq] at hissued hrun
      exact ⟨batches, hissued, hrun⟩
    · rw [heq] at hissued hrun
      refine ⟨b :: batches, ?_, hrun⟩
      rintro _ ⟨⟩
      exact ⟨hb, hissued⟩

end Engine

/-! ## Parts of a batch -/

namespace VersionSet

variable {vs : VersionSet}

theorem WellFormed.droppedPrefix (h : vs.WellFormed) (p : Bytes) :
    (vs.apply (.droppedPrefix p)).WellFormed :=
  ⟨h.meta_iff, h.level_unique, h.fresh⟩

theorem WellFormed.undroppedPrefix (h : vs.WellFormed) (p : Bytes) :
    (vs.apply (.undroppedPrefix p)).WellFormed :=
  ⟨h.meta_iff, h.level_unique, h.fresh⟩

theorem WellFormed.described (h : vs.WellFormed) : vs.Described :=
  fun _ _ hi ↦ h.exists_meta hi

theorem mem_files_applied {edits : List VersionEdit} {i l : ℕ} (hi : i ∈ vs.files l)
    (hkept : VersionEdit.deleteFile i l ∉ edits) : i ∈ (vs.applied edits).files l := by
  induction edits generalizing vs with
  | nil => exact hi
  | cons edit edits ih =>
    refine ih ?_ fun hmem ↦ hkept (List.mem_cons_of_mem edit hmem)
    cases edit with
    | addFile fileId level info => exact (mem_files_addFile ..).mpr (.inl hi)
    | deleteFile fileId level =>
      refine (mem_files_deleteFile ..).mpr ⟨hi, ?_⟩
      rintro ⟨rfl, rfl⟩
      exact hkept (.head _)
    | nextFileId n | droppedPrefix p | undroppedPrefix p => exact hi

end VersionSet

namespace EngineBatch

variable {vs : VersionSet} {b : EngineBatch} {part : List VersionEdit}

section Compaction

variable {inputs : List ℕ} {src tgt : ℕ} {outputs : List Engine.Output}

theorem Issued.nodup_fileIds (h : (compaction inputs src tgt outputs).Issued vs) :
    (outputs.map Engine.Output.fileId).Nodup := by
  rw [h.2.2]
  exact List.nodup_range.map fun a b hab ↦ by simpa using hab

theorem Issued.le_fileId (h : (compaction inputs src tgt outputs).Issued vs) {o : Engine.Output}
    (ho : o ∈ outputs) : vs.nextFileId ≤ o.fileId := by
  have hmem : o.fileId ∈ outputs.map Engine.Output.fileId := List.mem_map.mpr ⟨o, ho, rfl⟩
  rw [h.2.2] at hmem
  obtain ⟨index, -, hid⟩ := List.mem_map.mp hmem
  exact hid ▸ Nat.le_add_right _ _

theorem compaction_part (hpart : part <+: (compaction inputs src tgt outputs).edits vs) :
    (∃ added, added <+: outputs ∧
      part = added.map fun o ↦ .addFile o.fileId tgt (handleMeta o.rows o.env)) ∨
    ∃ deleted, deleted <+: inputs ∧ part = Engine.compactionEdits vs deleted src tgt outputs := by
  have hsplit := List.prefix_or_prefix_of_prefix hpart
    (List.prefix_append (outputs.map fun o ↦
      VersionEdit.addFile o.fileId tgt (handleMeta o.rows o.env)) _)
  rcases hsplit with hadds | ⟨rest, rfl⟩
  · obtain ⟨added, hadded, rfl⟩ := List.prefix_map_iff.mp hadds
    exact .inl ⟨added, hadded, rfl⟩
  · have hrest := (List.prefix_append_right_inj _).mp hpart
    rcases List.prefix_cons_iff.mp hrest with rfl | ⟨deletes, rfl, hdeletes⟩
    · exact .inl ⟨outputs, List.prefix_rfl, List.append_nil _⟩
    · obtain ⟨deleted, hdeleted, rfl⟩ := List.prefix_map_iff.mp hdeletes
      exact .inr ⟨deleted, hdeleted, rfl⟩

section

variable (hwf : vs.WellFormed) (h : (compaction inputs src tgt outputs).Issued vs)

include hwf h

theorem Issued.not_mem_files {o : Engine.Output} (ho : o ∈ outputs) (l : ℕ) :
    o.fileId ∉ vs.files l :=
  fun hmem ↦ absurd (hwf.fresh hmem) (h.le_fileId ho).not_gt

theorem Issued.input_level {i l : ℕ} (hi : i ∈ inputs) (hl : i ∈ vs.files l) :
    l = if i ∈ vs.files src then src else tgt := by
  split_ifs with hsrc
  · exact hwf.level_unique hl hsrc
  · exact hwf.level_unique hl (((h.1.2.2 i).mp hi).resolve_left hsrc)

theorem Issued.wellFormed_adds {added : List Engine.Output} (hadded : added <+: outputs) :
    (vs.applied (added.map fun o ↦
      VersionEdit.addFile o.fileId tgt (handleMeta o.rows o.env))).WellFormed :=
  hwf.applied_adds tgt _ (fun _ ho ↦ h.not_mem_files hwf (hadded.subset ho))
    (h.nodup_fileIds.sublist (hadded.sublist.map _))

theorem Issued.wellFormed_deletes {deleted : List ℕ} (hdeleted : deleted <+: inputs) :
    (vs.applied (Engine.compactionEdits vs deleted src tgt outputs)).WellFormed := by
  rw [Engine.compactionEdits, VersionSet.applied_append]
  refine ((h.wellFormed_adds hwf List.prefix_rfl).nextFileId _).applied_deletes fun i hi l hl ↦ ?_
  have hinput := hdeleted.subset hi
  rw [VersionSet.files_nextFileId, VersionSet.mem_files_applied_adds] at hl
  rcases hl with hl | ⟨-, o, ho, rfl⟩
  · exact h.input_level hwf hinput hl
  · rcases (h.1.2.2 _).mp hinput with hold | hold
    · exact absurd hold (h.not_mem_files hwf ho src)
    · exact absurd hold (h.not_mem_files hwf ho tgt)

end

end Compaction

theorem Issued.wellFormed_part (hwf : vs.WellFormed) (h : b.Issued vs)
    (hpart : part <+: b.edits vs) : (vs.applied part).WellFormed := by
  cases b with
  | flush rows env =>
    have hadded : (vs.apply (.addFile vs.nextFileId 0 (handleMeta rows env))).WellFormed :=
      hwf.addFile 0 _ fun l hmem ↦ lt_irrefl _ (hwf.fresh hmem)
    rcases List.prefix_cons_iff.mp hpart with rfl | ⟨rest, rfl, hrest⟩
    · exact hwf
    · rcases List.prefix_cons_iff.mp hrest with rfl | ⟨none, rfl, hnone⟩
      · exact hadded
      · rw [List.prefix_nil.mp hnone]
        exact hadded.nextFileId _
  | compaction inputs src tgt outputs =>
    rcases compaction_part hpart with ⟨added, hadded, rfl⟩ | ⟨deleted, hdeleted, rfl⟩
    · exact h.wellFormed_adds hwf hadded
    · exact h.wellFormed_deletes hwf hdeleted
  | dropTable p =>
    rcases List.prefix_cons_iff.mp hpart with rfl | ⟨none, rfl, hnone⟩
    · exact hwf
    · rw [List.prefix_nil.mp hnone]
      exact hwf.droppedPrefix p
  | undropTable p =>
    rcases List.prefix_cons_iff.mp hpart with rfl | ⟨none, rfl, hnone⟩
    · exact hwf
    · rw [List.prefix_nil.mp hnone]
      exact hwf.undroppedPrefix p

/-! ## What a part of a batch changes -/

/-- The first frame of a flush has the whole effect: the id that the second one
records is the successor of the file just added. -/
theorem applied_flush_part {rows : List VersionedRow} {env : SstEnv}
    (hpart : part <+: (flush rows env).edits vs) :
    vs.applied part = vs ∨ vs.applied part = vs.applied ((flush rows env).edits vs) := by
  rcases List.prefix_cons_iff.mp hpart with rfl | ⟨rest, rfl, hrest⟩
  · exact .inl rfl
  · rcases List.prefix_cons_iff.mp hrest with rfl | ⟨none, rfl, hnone⟩
    · refine .inr (VersionSet.ext_of rfl rfl ?_ rfl)
      exact (max_eq_left (le_max_right _ _)).symm
    · rw [List.prefix_nil.mp hnone]
      exact .inr rfl

section Compaction

variable {inputs : List ℕ} {src tgt : ℕ} {outputs : List Engine.Output}

theorem Issued.applied_part_ne_before (h : (compaction inputs src tgt outputs).Issued vs)
    (hpart : part <+: (compaction inputs src tgt outputs).edits vs) (hne : part ≠ []) :
    vs.applied part ≠ vs := by
  obtain ⟨first, rest, rfl⟩ := List.exists_cons_of_ne_nil h.2.1
  have hfirst : first.fileId = vs.nextFileId := by
    have hids := h.2.2
    rw [List.length_cons, List.range_succ_eq_map, List.map_cons, List.map_cons] at hids
    exact (List.cons.inj hids).1
  obtain ⟨edit, part, rfl⟩ := List.exists_cons_of_ne_nil hne
  obtain ⟨rfl, -⟩ := List.cons_prefix_cons.mp hpart
  intro heq
  have hle := VersionSet.nextFileId_le_applied
    (vs.apply (.addFile first.fileId tgt (handleMeta first.rows first.env))) part
  have hnext : vs.nextFileId + 1 ≤
      (vs.apply (.addFile first.fileId tgt (handleMeta first.rows first.env))).nextFileId :=
    hfirst ▸ le_max_right _ _
  have hsame : ((vs.apply (.addFile first.fileId tgt (handleMeta first.rows first.env))).applied
      part).nextFileId = vs.nextFileId := congrArg VersionSet.nextFileId heq
  omega

theorem Issued.applied_part_ne_after (h : (compaction inputs src tgt outputs).Issued vs)
    (hpart : part <+: (compaction inputs src tgt outputs).edits vs)
    (hne : part ≠ (compaction inputs src tgt outputs).edits vs) :
    vs.applied part ≠ vs.applied ((compaction inputs src tgt outputs).edits vs) := by
  have hnonempty : inputs ≠ [] := by
    rintro rfl
    exact absurd h.1.2.1 (by decide)
  obtain ⟨others, i, rfl⟩ := (List.eq_nil_or_concat' inputs).resolve_left hnonempty
  have hedits : (compaction (others ++ [i]) src tgt outputs).edits vs =
      Engine.compactionEdits vs others src tgt outputs ++
        [.deleteFile i (if i ∈ vs.files src then src else tgt)] := by
    simp [edits, Engine.compactionEdits]
  have hlive : i ∈ vs.files (if i ∈ vs.files src then src else tgt) := by
    have hinput : i ∈ vs.files src ∨ i ∈ vs.files tgt := (h.1.2.2 i).mp (by simp)
    split_ifs with hsrc
    · exact hsrc
    · exact hinput.resolve_left hsrc
  have hother : i ∉ others := by
    have hnodup := h.1.1
    rw [List.nodup_append] at hnodup
    exact fun hmem ↦ hnodup.2.2 i hmem i (.head _) rfl
  rw [hedits] at hpart hne ⊢
  have hearlier := (List.prefix_concat_iff.mp hpart).resolve_left hne
  have hkept : VersionEdit.deleteFile i (if i ∈ vs.files src then src else tgt) ∉ part := by
    intro hmem
    have hmem := hearlier.subset hmem
    simp only [Engine.compactionEdits, List.mem_append, List.mem_map, List.mem_cons, reduceCtorEq,
      and_false, exists_false, false_or, VersionEdit.deleteFile.injEq] at hmem
    obtain ⟨input, hinput, rfl, -⟩ := hmem
    exact hother hinput
  intro heq
  have hmem := VersionSet.mem_files_applied hlive hkept
  rw [heq, VersionSet.applied_append] at hmem
  exact ((VersionSet.mem_files_deleteFile ..).mp hmem).2 ⟨rfl, rfl⟩

end Compaction

end EngineBatch

namespace Manifest

namespace ManifestLog

variable {s' : ManifestLog} {vs : VersionSet}

variable {s : ManifestLog} {session : Session} {edits : List VersionEdit}

/-! ## File and memory -/

def IssuedBy (s : ManifestLog) (edits : List VersionEdit) : Prop :=
  ∀ session, s.session = some session →
    ∃ b : EngineBatch, b.Issued session.versionSet ∧ edits = b.edits session.versionSet

/-- The steps of an engine whose appends do not fail.  A crash may cut the last
batch between two frames. -/
def EngineStep (s : ManifestLog) : ManifestOp → Prop
  | .append edits => Acceptable edits ∧ s.IssuedBy edits
  | .appendFailing _ _ => False
  | .crash edits written => Acceptable edits ∧ s.IssuedBy edits ∧
      torn frameBytes written edits = none
  | .reopen => True

def Agrees (s : ManifestLog) : Prop :=
  ∀ session, s.session = some session → ∃ reopened, openManifest s.file = .ok reopened ∧
    reopened.versionSet.levels = session.versionSet.levels ∧
    reopened.versionSet.fileMeta = session.versionSet.fileMeta ∧
    reopened.versionSet.nextFileId = session.versionSet.nextFileId ∧
    reopened.versionSet.dropped = session.versionSet.dropped ∧
    reopened.versionSet.filesByKey = session.versionSet.filesByKey ∧
    reopened.versionSet.fileLevel = session.versionSet.fileLevel

/-- The file is whole frames, and the memory is their effect. -/
structure SyncedWith (s : ManifestLog) (frames : List VersionEdit) : Prop where
  file : s.file = frames.flatMap frameBytes
  appendable : ∀ e ∈ frames, Appendable e
  wellFormed : (VersionSet.initial.applied frames).WellFormed
  session : ∀ session, s.session = some session →
    session.versionSet = VersionSet.initial.applied frames

variable {frames : List VersionEdit}

theorem syncedWith_initial : initial.SyncedWith [] where
  file := rfl
  appendable _ h := by cases h
  wellFormed := VersionSet.wellFormed_initial
  session _ h := by cases h

theorem SyncedWith.open_eq (h : s.SyncedWith frames) :
    openManifest s.file = .ok ⟨VersionSet.initial.applied frames, frames.length⟩ := by
  rw [h.file]
  exact openManifest_of_read (readManifestFile_flatMap fun e he ↦ (h.appendable e he).inRange)

theorem SyncedWith.agrees (h : s.SyncedWith frames) : s.Agrees := by
  intro session hsession
  refine ⟨_, h.open_eq, ?_⟩
  dsimp only
  rw [h.session session hsession]
  exact ⟨rfl, rfl, rfl, rfl, rfl, rfl⟩

theorem SyncedWith.extend (h : s.SyncedWith frames) {part : List VersionEdit}
    (hpart : ∀ e ∈ part, Appendable e)
    (hwf : ((VersionSet.initial.applied frames).applied part).WellFormed)
    {memory : Option Session} {attempts : List Attempt}
    (hmemory : ∀ session, memory = some session →
      session.versionSet = (VersionSet.initial.applied frames).applied part) :
    SyncedWith ⟨s.file ++ part.flatMap frameBytes, memory, attempts⟩ (frames ++ part) where
  file := by rw [h.file, List.flatMap_append]
  appendable e he := (List.mem_append.mp he).elim (h.appendable e) (hpart e)
  wellFormed := by rwa [VersionSet.applied_append]
  session session hsession := by rw [hmemory session hsession, VersionSet.applied_append]

theorem SyncedWith.rewritten (hrecordable : vs.Recordable)
    (hwf : vs.WellFormed) (editCount : ℕ) (attempts : List Attempt) :
    SyncedWith ⟨vs.toEdits.flatMap frameBytes, some ⟨vs, editCount⟩, attempts⟩ vs.toEdits where
  file := rfl
  appendable := hrecordable.appendable_toEdits
  wellFormed := by rwa [hrecordable.applied_toEdits_iff.mpr hwf.described]
  session session hsession := by
    cases hsession
    exact (hrecordable.applied_toEdits_iff.mpr hwf.described).symm

section

variable (h : s.SyncedWith frames)

include h

theorem SyncedWith.step_append
    (hcond : s.EngineStep (.append edits)) (hstep : s.step (.append edits) = some s') :
    ∃ frames', s'.SyncedWith frames' := by
  obtain ⟨haccept, hissued⟩ := hcond
  have hrecordable := VersionSet.recordable_initial.applied h.appendable
  obtain ⟨session, hsession, hcases⟩ := step_append_cases haccept
    (fun found hfound ↦ h.session found hfound ▸ hrecordable) hstep
  have hmemory := h.session session hsession
  have hsame : ∀ attempts, SyncedWith ⟨s.file, some session, attempts⟩ frames :=
    fun attempts ↦ ⟨h.file, h.appendable, h.wellFormed, fun _ hs ↦ by cases hs; exact hmemory⟩
  rcases hcases with ⟨rfl, rfl⟩ | ⟨-, rfl⟩ | ⟨hne, happendable, file, editCount, rfl, rfl⟩
  · exact ⟨frames, hsame _⟩
  · exact ⟨frames, hsame _⟩
  · obtain ⟨b, hb, hedits⟩ := hissued session hsession
    have hwf : (session.versionSet.applied edits).WellFormed :=
      hb.wellFormed_part (hmemory ▸ h.wellFormed) (hedits ▸ List.prefix_rfl)
    split_ifs with hrewrites
    · have hnext := (hmemory ▸ hrecordable : session.versionSet.Recordable).applied happendable
      exact ⟨_, SyncedWith.rewritten hnext hwf editCount _⟩
    · refine ⟨_, h.extend happendable (hmemory ▸ hwf) ?_⟩
      rintro _ ⟨⟩
      rw [← hmemory]

theorem SyncedWith.step_crash {written : ℕ} (hcond : s.EngineStep (.crash edits written))
    (hstep : s.step (.crash edits written) = some s') : ∃ frames', s'.SyncedWith frames' := by
  obtain ⟨haccept, hissued, hwhole⟩ := hcond
  obtain ⟨session, hsession, hresult⟩ := Option.bind_eq_some_iff.mp hstep
  obtain ⟨b, hb, hedits⟩ := hissued session hsession
  cases hencode : encodeEdits edits with
  | error err =>
    rw [hencode] at hresult
    cases hresult
    exact ⟨frames, h.file, h.appendable, h.wellFormed, fun _ hs ↦ by cases hs⟩
  | ok bytes =>
    rw [hencode] at hresult
    obtain ⟨-, ⟨⟩⟩ := Option.ite_none_right_eq_some.mp hresult
    have hpart : complete frameBytes written edits <+: edits :=
      prefix_complete written edits
    have hbytes : bytes.take written = (complete frameBytes written edits).flatMap frameBytes := by
      rw [(encodeEdits_eq_ok_iff.mp hencode).2, take_flatMap, leftover, hwhole, List.append_nil]
    rw [hbytes]
    refine ⟨_, h.extend (fun e he ↦ haccept.appendable hencode e (hpart.subset he)) ?_
      fun _ hs ↦ by cases hs⟩
    rw [← h.session session hsession]
    exact hb.wellFormed_part (h.session session hsession ▸ h.wellFormed) (hedits ▸ hpart)

theorem SyncedWith.step_reopen (hstep : s.step .reopen = some s') : s'.SyncedWith frames := by
  rw [step, h.open_eq] at hstep
  cases hstep
  refine ⟨h.file, h.appendable, h.wellFormed, ?_⟩
  rintro _ ⟨⟩
  rfl

theorem SyncedWith.step {op : ManifestOp}
    (hcond : s.EngineStep op) (hstep : s.step op = some s') : ∃ frames', s'.SyncedWith frames' := by
  cases op with
  | append edits => exact h.step_append hcond hstep
  | appendFailing edits written => exact absurd hcond id
  | crash edits written => exact h.step_crash hcond hstep
  | reopen => exact ⟨frames, h.step_reopen hstep⟩

end

/-- However many batches are appended and however often the file is rewritten,
opening it gives the version set in memory. -/
theorem agrees_along {ops : List ManifestOp}
    (hmeet : StepsMeet ManifestLog.step EngineStep initial ops) :
    Along ManifestLog.step Agrees initial ops :=
  hmeet.along (I := fun s ↦ ∃ frames, s.SyncedWith frames)
    (fun _ _ _ ⟨_, h⟩ hcond hstep ↦ h.step hcond hstep) (fun _ ⟨_, h⟩ ↦ h.agrees)
    ⟨[], syncedWith_initial⟩

/-! ## Crashes -/

/-- What opening the manifest finds after a crash: the version set before the
batch, with the frames that are complete. -/
theorem SyncedWith.open_crashed (h : s.SyncedWith frames) (hsession : s.session = some session)
    {bytes : Bytes} (haccept : Acceptable edits) (hencode : encodeEdits edits = .ok bytes)
    {written : ℕ} {reopened : Session}
    (hopen : openManifest (s.file ++ bytes.take written) = .ok reopened) :
    reopened.versionSet = session.versionSet.applied (complete frameBytes written edits) := by
  have hall : ∀ e ∈ frames ++ edits, InRange e := by
    intro e he
    rcases List.mem_append.mp he with he | he
    · exact (h.appendable e he).inRange
    · exact (haccept.appendable hencode e he).inRange
  have hfile : s.file ++ bytes.take written =
      ((frames ++ edits).flatMap frameBytes).take (s.file.length + written) := by
    rw [(encodeEdits_eq_ok_iff.mp hencode).2, List.flatMap_append, ← h.file,
      List.take_length_add_append]
  have hcomplete : complete frameBytes (s.file.length + written) (frames ++ edits) =
      frames ++ complete frameBytes written edits := by
    rw [complete_append, ← h.file, if_pos (Nat.le_add_right _ _), Nat.add_sub_cancel_left]
  rw [openManifest, hfile] at hopen
  obtain ⟨found, hread, ⟨⟩⟩ := Fallible.bind_eq_ok hopen
  rw [complete_of_readManifestFile_take hall hread, hcomplete, VersionSet.applied_append,
    h.session session hsession]

/-- In every manifest that an engine reaches whose appends do not fail, and for
every batch of a flush or a compaction cut anywhere: the manifest opens as it
was before the batch or as it is after it exactly when the batch is a flush, or
no frame of it is complete, or all are. -/
theorem crash_atomic_iff {ops : List ManifestOp}
    (hmeet : StepsMeet ManifestLog.step EngineStep initial ops)
    (hrun : run ManifestLog.step initial ops = some s)
    (hsession : s.session = some session) {b : EngineBatch} (hfiles : b.ChangesFiles)
    (hissued : b.Issued session.versionSet) (haccept : Acceptable (b.edits session.versionSet))
    {bytes : Bytes} (hencode : encodeEdits (b.edits session.versionSet) = .ok bytes)
    (written : ℕ) {reopened : Session}
    (hopen : openManifest (s.file ++ bytes.take written) = .ok reopened) :
    (reopened.versionSet = session.versionSet ∨
        reopened.versionSet = session.versionSet.applied (b.edits session.versionSet)) ↔
      b.IsFlush ∨ complete frameBytes written (b.edits session.versionSet) = [] ∨
        complete frameBytes written (b.edits session.versionSet) = b.edits session.versionSet := by
  obtain ⟨frames, h⟩ := hmeet.run_invariant (I := fun s ↦ ∃ frames, s.SyncedWith frames)
    (fun _ _ _ ⟨_, h⟩ hcond hstep ↦ h.step hcond hstep) ⟨[], syncedWith_initial⟩ hrun
  have hpart : complete frameBytes written (b.edits session.versionSet) <+:
      b.edits session.versionSet := prefix_complete written _
  rw [h.open_crashed hsession haccept hencode hopen]
  cases b with
  | flush rows env => exact iff_of_true (EngineBatch.applied_flush_part hpart) (.inl trivial)
  | compaction inputs src tgt outputs =>
    constructor
    · intro hatomic
      refine .inr (or_iff_not_imp_left.mpr fun hnone ↦ ?_)
      have hafter := hatomic.resolve_left (hissued.applied_part_ne_before hpart hnone)
      by_contra hsome
      exact hissued.applied_part_ne_after hpart hsome hafter
    · rintro (hflush | hnone | hall)
      · exact absurd hflush id
      · rw [hnone]
        exact .inl rfl
      · rw [hall]
        exact .inr rfl
  | dropTable p => exact absurd hfiles id
  | undropTable p => exact absurd hfiles id

/-! ## Two flushes and a compaction -/

def smallFlush : EngineBatch := .flush [⟨[107], .live [1] 1 1⟩] ⟨100, 0, none, true⟩

def smallMerge : EngineBatch :=
  .compaction [0, 1] 0 1 [⟨2, [⟨[107], .live [1] 1 1⟩], ⟨100, 0, none, true⟩⟩]

def twoFlushes : List ManifestOp :=
  [.reopen, .append [.addFile 0 0 ⟨[107], [107], 100, 0⟩, .nextFileId 1],
    .append [.addFile 1 0 ⟨[107], [107], 100, 0⟩, .nextFileId 2]]

def mergeEdits : List VersionEdit :=
  [.addFile 2 1 ⟨[107], [107], 100, 0⟩, .nextFileId 3, .deleteFile 0 0, .deleteFile 1 0]

theorem acceptable_smallFlush {n : ℕ} (hn : n < 100) :
    Acceptable [.addFile n 0 ⟨[107], [107], 100, 0⟩, .nextFileId (n + 1)] := by
  intro e he
  rcases List.mem_cons.mp he with rfl | he
  · refine ⟨⟨by omega, by decide, by decide, by decide⟩, trivial, ?_⟩
    rintro _ _ _ ⟨⟩
    omega
  · rw [List.mem_singleton.mp he]
    exact ⟨show n + 1 < 2 ^ 64 by omega, trivial, fun _ _ _ h ↦ by cases h⟩

theorem acceptable_mergeEdits : Acceptable mergeEdits := by
  intro e he
  simp only [mergeEdits, List.mem_cons, List.not_mem_nil, or_false] at he
  rcases he with rfl | rfl | rfl | rfl
  · refine ⟨⟨by decide, by decide, by decide, by decide⟩, trivial, ?_⟩
    rintro _ _ _ ⟨⟩
    decide
  · exact ⟨show 3 < 2 ^ 64 by decide, trivial, fun _ _ _ h ↦ by cases h⟩
  · exact ⟨⟨by decide, by decide⟩, trivial, fun _ _ _ h ↦ by cases h⟩
  · exact ⟨⟨by decide, by decide⟩, trivial, fun _ _ _ h ↦ by cases h⟩

theorem issued_smallMerge (hzero : vs.files 0 = [0, 1]) (hone : vs.files 1 = [])
    (hnext : vs.nextFileId = 2) : smallMerge.Issued vs := by
  refine ⟨⟨by decide, by decide, fun i ↦ ?_⟩, List.cons_ne_nil _ _, by simp [hnext]⟩
  rw [hzero, hone]
  simp

theorem stepsMeet_twoFlushes {rest : List ManifestOp}
    (hrest : ∀ s session, s.session = some session → session.versionSet.files 0 = [0, 1] →
      session.versionSet.files 1 = [] → session.versionSet.nextFileId = 2 →
        StepsMeet ManifestLog.step EngineStep s rest) :
    StepsMeet ManifestLog.step EngineStep initial (twoFlushes ++ rest) := by
  rintro _ ⟨⟩
  refine ⟨trivial, ?_⟩
  rintro _ ⟨⟩
  refine ⟨⟨acceptable_smallFlush (by decide), ?_⟩, ?_⟩
  · rintro _ ⟨⟩
    exact ⟨smallFlush, List.cons_ne_nil _ _, rfl⟩
  rintro _ ⟨⟩
  refine ⟨⟨acceptable_smallFlush (by decide), ?_⟩, ?_⟩
  · rintro _ ⟨⟩
    exact ⟨smallFlush, List.cons_ne_nil _ _, rfl⟩
  exact hrest _ _ rfl rfl rfl rfl

theorem edits_smallMerge (hzero : vs.files 0 = [0, 1]) : smallMerge.edits vs = mergeEdits := by
  simp [smallMerge, EngineBatch.edits, Engine.compactionEdits, mergeEdits, handleMeta, hzero]

theorem agrees_along_merge :
    Along ManifestLog.step Agrees initial
      (twoFlushes ++ [.append mergeEdits, .append [.droppedPrefix [116, 0]], .reopen]) := by
  refine agrees_along (stepsMeet_twoFlushes fun s session hs hzero hone hnext ↦ ?_)
  intro t _
  refine ⟨⟨acceptable_mergeEdits, fun found hfound ↦ ?_⟩, fun u _ ↦ ⟨⟨?_, ?_⟩, ?_⟩⟩
  · cases hs.symm.trans hfound
    exact ⟨smallMerge, issued_smallMerge hzero hone hnext, (edits_smallMerge hzero).symm⟩
  · intro e he
    rw [List.mem_singleton.mp he]
    exact ⟨trivial, List.cons_ne_nil _ _, fun _ _ _ h ↦ by cases h⟩
  · exact fun found _ ↦ ⟨.dropTable [116, 0], trivial, rfl⟩
  · exact fun _ _ ↦ ⟨trivial, trivial⟩

def flushedEdits : List VersionEdit :=
  [.addFile 0 0 ⟨[107], [107], 100, 0⟩, .nextFileId 1,
    .addFile 1 0 ⟨[107], [107], 100, 0⟩, .nextFileId 2]

/-- The crash leaves five bytes of the first frame of the compaction. -/
theorem crash_atomic_iff_tornMerge :
    ∃ s session bytes reopened, run ManifestLog.step initial twoFlushes = some s ∧
      s.session = some session ∧ smallMerge.Issued session.versionSet ∧
      encodeEdits (smallMerge.edits session.versionSet) = .ok bytes ∧
      openManifest (s.file ++ bytes.take 5) = .ok reopened ∧
      (reopened.versionSet = session.versionSet ∨
        reopened.versionSet =
          session.versionSet.applied (smallMerge.edits session.versionSet)) := by
  have hmeet : StepsMeet ManifestLog.step EngineStep initial twoFlushes :=
    List.append_nil twoFlushes ▸ stepsMeet_twoFlushes fun _ _ _ _ _ _ ↦ trivial
  refine ⟨_, _, _, ⟨VersionSet.initial.applied flushedEdits, 4⟩, rfl, rfl,
    issued_smallMerge rfl rfl rfl, rfl, openManifest_of_read ?_, ?_⟩
  · decide +kernel
  · refine (crash_atomic_iff hmeet rfl rfl (show smallMerge.ChangesFiles from trivial)
      (issued_smallMerge rfl rfl rfl) ?_ rfl 5 (openManifest_of_read ?_)).mpr (.inr (.inl ?_))
    · exact acceptable_mergeEdits
    · decide +kernel
    · decide +kernel

/-- The crash leaves the first frame of the compaction: its output is live next
to its two inputs. -/
theorem compaction_crash_exposes_output :
    ∃ s session bytes reopened, run ManifestLog.step initial twoFlushes = some s ∧
      s.session = some session ∧ smallMerge.Issued session.versionSet ∧
      encodeEdits (smallMerge.edits session.versionSet) = .ok bytes ∧
      openManifest (s.file ++ bytes.take 47) = .ok reopened ∧
      reopened.versionSet.files 0 = [0, 1] ∧ reopened.versionSet.files 1 = [2] ∧
      reopened.versionSet ≠ session.versionSet ∧
      reopened.versionSet ≠ session.versionSet.applied (smallMerge.edits session.versionSet) := by
  refine ⟨_, _, _, ⟨VersionSet.initial.applied (flushedEdits ++ mergeEdits.take 1), 5⟩, rfl, rfl,
    issued_smallMerge rfl rfl rfl, rfl, openManifest_of_read ?_, rfl, rfl, fun heq ↦ ?_,
    fun heq ↦ ?_⟩
  · decide +kernel
  · exact absurd (congrArg VersionSet.nextFileId heq) (by decide)
  · exact absurd (congrArg (VersionSet.files · 0) heq) (by decide)

end ManifestLog

end Manifest

end HatP
