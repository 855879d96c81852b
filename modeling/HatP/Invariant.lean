import HatP.Lib.Run
import HatP.Compaction

/-!
# Reachable engines

The invariant of a sequential engine: the version set is well formed, files are
sorted and tiled and described by their metadata, retired files are gone, and
one commit timestamp of a key stands for one value.  Every operation keeps it.
-/

namespace HatP

open Transition

namespace Engine

def heldStamps (e : Engine) (key : Bytes) : Set (ℕ × Option Bytes) :=
  stamps (e.memtable.chain key).versions ∪ e.liveStamps key

structure Inv (e : Engine) : Prop where
  versionSet : e.versionSet.WellFormed
  memtable_tiled : e.memtable.Tiled
  sorted : ∀ i, e.IsLive i → SortedRows (e.rowsOf i)
  tiled : ∀ i, e.IsLive i → TiledRows (e.rowsOf i)
  retired : ∀ i, ¬e.IsLive i → e.ssts[i]? = none
  metadata : ∀ i info, e.versionSet.fileMeta[i]? = some info →
    ∃ env, info = handleMeta (e.rowsOf i) env
  begun : ∀ key, ∀ p ∈ e.heldStamps key, p.1 < e.commitSeq
  unique : ∀ key, ∀ p ∈ e.heldStamps key, ∀ q ∈ e.heldStamps key, p.1 = q.1 → p = q

variable {e : Engine}

theorem Inv.copies (h : e.Inv) : e.Copies := by
  intro key u hu v hv huv
  have hstamp := h.unique key u.stamp (Or.inr ⟨u, hu, rfl⟩) v.stamp (Or.inr ⟨v, hv, rfl⟩) huv
  exact congrArg Prod.snd hstamp

theorem not_isLive_initial (i : ℕ) : ¬initial.IsLive i := by
  rintro ⟨l, hl⟩
  exact absurd (VersionSet.wellFormed_initial.fresh hl) (Nat.not_lt_zero i)

theorem heldStamps_initial (key : Bytes) : initial.heldStamps key = ∅ := by
  ext p
  simp only [heldStamps, Set.mem_union, Set.mem_empty_iff_false, iff_false, not_or]
  constructor
  · change p ∉ stamps ((∅ : MemTable).chain key).versions
    rw [MemTable.chain_empty]
    simp [VersionChain.empty]
  · rintro ⟨v, ⟨i, hi, -⟩, -⟩
    exact not_isLive_initial i hi

theorem inv_initial : initial.Inv where
  versionSet := VersionSet.wellFormed_initial
  memtable_tiled := MemTable.tiled_clear ∅
  sorted i hi := absurd hi (not_isLive_initial i)
  tiled i hi := absurd hi (not_isLive_initial i)
  retired _ _ := Std.ExtTreeMap.getElem?_empty
  metadata i info h := by simp [initial, VersionSet.initial] at h
  begun key p hp := by simp [heldStamps_initial] at hp
  unique key p hp := by simp [heldStamps_initial] at hp

/-! ## Commits -/

section Write

variable {e : Engine} {txId : ℕ} {ms : List Mutation}

def committed (e : Engine) (txId : ℕ) (ms : List Mutation) : Engine :=
  { e with
    memtable := e.memtable.applyMutationsBatch txId ms e.commitSeq
    commitSeq := e.commitSeq + 1 }

theorem mem_heldStamps_committed (h : e.Inv) {key : Bytes} {p : ℕ × Option Bytes} :
    p ∈ (e.committed txId ms).heldStamps key ↔
      (p.1 = e.commitSeq ∧ netEffect ms key = some p.2) ∨ p ∈ e.heldStamps key := by
  have hlive : (e.committed txId ms).liveStamps key = e.liveStamps key := rfl
  have hbegun := h.begun key p
  simp only [heldStamps, hlive, Set.mem_union] at hbegun ⊢
  rw [committed, MemTable.mem_stamps_applyMutationsBatch]
  constructor
  · rintro ((hnew | ⟨-, hold⟩) | hold)
    · exact Or.inl hnew
    · exact Or.inr (Or.inl hold)
    · exact Or.inr (Or.inr hold)
  · rintro (hnew | hold | hold)
    · exact Or.inl (Or.inl hnew)
    · have hlt := hbegun (Or.inl hold)
      exact Or.inl (Or.inr ⟨fun heq ↦ absurd heq hlt.ne, hold⟩)
    · exact Or.inr hold

theorem Inv.committed (h : e.Inv) : (e.committed txId ms).Inv where
  versionSet := h.versionSet
  memtable_tiled := h.memtable_tiled.applyMutationsBatch txId e.commitSeq ms
  sorted := h.sorted
  tiled := h.tiled
  retired := h.retired
  metadata := h.metadata
  begun key p hp := by
    rcases (mem_heldStamps_committed h).mp hp with ⟨heq, -⟩ | hold
    · exact heq ▸ Nat.lt_succ_self _
    · exact (h.begun key p hold).trans (Nat.lt_succ_self _)
  unique key p hp q hq hpq := by
    rcases (mem_heldStamps_committed h).mp hp with ⟨hp₁, hp₂⟩ | hp <;>
      rcases (mem_heldStamps_committed h).mp hq with ⟨hq₁, hq₂⟩ | hq
    · exact Prod.ext hpq (Option.some.inj (hp₂.symm.trans hq₂))
    · exact absurd (hpq ▸ hp₁) (h.begun key q hq).ne
    · exact absurd (hpq.trans hq₁) (h.begun key p hp).ne
    · exact h.unique key p hp q hq hpq

end Write

/-! ## Flushes -/

section Flush

variable {e : Engine} {env : SstEnv} {i l : ℕ}

theorem flush_of_nil (h : e.memtable.drainInto = []) : e.flush env = e := by
  simp [flush, h]

variable (hne : e.memtable.drainInto ≠ [])

include hne

theorem versionSet_flush : (e.flush env).versionSet = e.versionSet.applied
    [.addFile e.versionSet.nextFileId 0 (handleMeta e.memtable.drainInto env),
      .nextFileId (e.versionSet.nextFileId + 1)] := by
  simp [flush, flushSstLocked, hne]

theorem ssts_flush : (e.flush env).ssts[i]? =
    if e.versionSet.nextFileId = i then some (.write e.memtable.drainInto env)
    else e.ssts[i]? := by
  simp [flush, flushSstLocked, hne, Std.ExtTreeMap.getElem?_insert]

theorem chain_flush (key : Bytes) : (e.flush env).memtable.chain key = .empty := by
  simp [flush, flushSstLocked, hne]

theorem commitSeq_flush : (e.flush env).commitSeq = e.commitSeq := by
  simp [flush, flushSstLocked, hne]

theorem mem_files_flush : i ∈ (e.flush env).versionSet.files l ↔
    i ∈ e.versionSet.files l ∨ l = 0 ∧ i = e.versionSet.nextFileId := by
  rw [versionSet_flush hne]
  exact VersionSet.mem_files_addFile e.versionSet _ 0 (handleMeta e.memtable.drainInto env) l i

theorem isLive_flush : (e.flush env).IsLive i ↔ e.IsLive i ∨ i = e.versionSet.nextFileId := by
  simp only [IsLive, mem_files_flush hne, exists_or, exists_eq_left]

theorem rowsOf_flush_new : (e.flush env).rowsOf e.versionSet.nextFileId = e.memtable.drainInto := by
  simp [rowsOf, ssts_flush hne, SstFile.write]

theorem rowsOf_flush_old (hi : i ≠ e.versionSet.nextFileId) :
    (e.flush env).rowsOf i = e.rowsOf i := by
  simp [rowsOf, ssts_flush hne, Ne.symm hi]

theorem mem_liveVersions_flush (h : e.versionSet.WellFormed) {key : Bytes} {v : VersionedValue} :
    v ∈ (e.flush env).liveVersions key ↔
      v ∈ e.liveVersions key ∨ v ∈ (e.memtable.chain key).versions := by
  have hnew : ∀ i, e.IsLive i → i ≠ e.versionSet.nextFileId :=
    fun i hi ↦ hi.elim fun l hl ↦ (h.fresh hl).ne
  constructor
  · rintro ⟨i, hi, hv⟩
    rcases (isLive_flush hne).mp hi with hi | rfl
    · rw [rowsOf_flush_old hne (hnew i hi)] at hv
      exact Or.inl ⟨i, hi, hv⟩
    · rw [rowsOf_flush_new hne, MemTable.versionsOf_drainInto] at hv
      exact Or.inr hv
  · rintro (⟨i, hi, hv⟩ | hv)
    · refine ⟨i, (isLive_flush hne).mpr (Or.inl hi), ?_⟩
      rwa [rowsOf_flush_old hne (hnew i hi)]
    · refine ⟨e.versionSet.nextFileId, (isLive_flush hne).mpr (Or.inr rfl), ?_⟩
      rwa [rowsOf_flush_new hne, MemTable.versionsOf_drainInto]

end Flush

theorem heldStamps_flush (h : e.versionSet.WellFormed) (env : SstEnv) (key : Bytes) :
    (e.flush env).heldStamps key = e.heldStamps key := by
  by_cases hne : e.memtable.drainInto = []
  · rw [flush_of_nil hne]
  ext p
  simp only [heldStamps, Set.mem_union, chain_flush hne]
  constructor
  · rintro (⟨v, hv, -⟩ | ⟨v, hv, rfl⟩)
    · cases hv
    · rcases (mem_liveVersions_flush hne h).mp hv with hv | hv
      · exact Or.inr ⟨v, hv, rfl⟩
      · exact Or.inl ⟨v, hv, rfl⟩
  · rintro (⟨v, hv, rfl⟩ | ⟨v, hv, rfl⟩)
    · exact Or.inr ⟨v, (mem_liveVersions_flush hne h).mpr (Or.inr hv), rfl⟩
    · exact Or.inr ⟨v, (mem_liveVersions_flush hne h).mpr (Or.inl hv), rfl⟩

theorem Inv.flush (h : e.Inv) (env : SstEnv) : (e.flush env).Inv := by
  by_cases hne : e.memtable.drainInto = []
  · rwa [flush_of_nil hne]
  have hfresh : ∀ l, e.versionSet.nextFileId ∉ e.versionSet.files l :=
    fun l hl ↦ lt_irrefl _ (h.versionSet.fresh hl)
  have hold : ∀ i, e.IsLive i → i ≠ e.versionSet.nextFileId := by
    rintro i ⟨l, hl⟩ rfl
    exact hfresh l hl
  exact
    { versionSet := by
        rw [versionSet_flush hne]
        exact (h.versionSet.addFile 0 _ hfresh).nextFileId _
      memtable_tiled := fun key ↦ chain_flush hne key ▸ VersionChain.tiled_empty
      sorted := fun i hi ↦ by
        rcases (isLive_flush hne).mp hi with hi | rfl
        · exact rowsOf_flush_old hne (hold i hi) ▸ h.sorted i hi
        · exact rowsOf_flush_new hne ▸ e.memtable.sorted_drainInto
      tiled := fun i hi ↦ by
        rcases (isLive_flush hne).mp hi with hi | rfl
        · exact rowsOf_flush_old hne (hold i hi) ▸ h.tiled i hi
        · exact rowsOf_flush_new hne ▸ h.memtable_tiled.drainInto
      retired := fun i hi ↦ by
        rw [isLive_flush hne, not_or] at hi
        rw [ssts_flush hne, if_neg (Ne.symm hi.2)]
        exact h.retired i hi.1
      metadata := fun i info hinfo ↦ by
        rw [versionSet_flush hne] at hinfo
        have hadded : (e.versionSet.apply (.addFile e.versionSet.nextFileId 0
            (handleMeta e.memtable.drainInto env))).fileMeta[i]? = some info := hinfo
        rw [VersionSet.getElem?_fileMeta_addFile] at hadded
        split_ifs at hadded with hi
        · subst hi
          rw [rowsOf_flush_new hne]
          exact ⟨env, (Option.some.inj hadded).symm⟩
        · rw [rowsOf_flush_old hne (Ne.symm hi)]
          exact h.metadata i info hadded
      begun := fun key p hp ↦ by
        rw [heldStamps_flush h.versionSet] at hp
        exact commitSeq_flush hne ▸ h.begun key p hp
      unique := fun key p hp q hq ↦ by
        rw [heldStamps_flush h.versionSet] at hp hq
        exact h.unique key p hp q hq }

/-! ## Compactions -/

section Compaction

variable {e : Engine} {src tgt w : ℕ} {chunks : List (List ℕ)} {env : ℕ → SstEnv}

theorem heldStamps_compactChunks_subset (h : e.versionSet.WellFormed)
    (hsplit : e.Splits src tgt chunks) (key : Bytes) :
    (e.merged src tgt w chunks env).heldStamps key ⊆ e.heldStamps key := by
  rintro p (hp | hp)
  · exact Or.inl hp
  · exact Or.inr (liveStamps_compactChunks_subset h hsplit key hp)

theorem Inv.compactChunks (h : e.Inv) (hsplit : e.Splits src tgt chunks) :
    (e.merged src tgt w chunks env).Inv := by
  have hwf := h.versionSet
  have hsub : ∀ key, (e.merged src tgt w chunks env).heldStamps key ⊆ e.heldStamps key :=
    heldStamps_compactChunks_subset hwf hsplit
  have hmem : ∀ i ∈ e.compactionInputs src tgt,
      i ∈ e.versionSet.files src ∨ i ∈ e.versionSet.files tgt := fun i ↦ mem_compactionInputs.mp
  exact
    { versionSet := wellFormed_compactChunks hwf hmem
      memtable_tiled := h.memtable_tiled
      sorted := fun i hi ↦ by
        rcases (isLive_compactChunks hwf).mp hi with ⟨⟨l, hl⟩, hi⟩ | ⟨index, hlt, rfl⟩
        · rw [rowsOf_eq_of_ssts (ssts_compactChunks_kept hi (hwf.fresh hl))]
          exact h.sorted i ⟨l, hl⟩
        · rw [rowsOf_output hwf (List.getElem?_eq_getElem hlt)]
          exact sorted_dedupSuperseded _ w
      tiled := fun i hi ↦ by
        rcases (isLive_compactChunks hwf).mp hi with ⟨⟨l, hl⟩, hi⟩ | ⟨index, hlt, rfl⟩
        · rw [rowsOf_eq_of_ssts (ssts_compactChunks_kept hi (hwf.fresh hl))]
          exact h.tiled i ⟨l, hl⟩
        · rw [rowsOf_output hwf (List.getElem?_eq_getElem hlt)]
          exact tiled_dedupSuperseded _ w
      retired := fun i hi ↦ by
        rw [isLive_compactChunks hwf, not_or] at hi
        rw [ssts_compactChunks]
        split_ifs with hinput
        · rfl
        · have hnone : (e.chunkOutputs w chunks env).find? (fun o ↦ o.fileId == i) = none := by
            apply List.find?_eq_none.mpr
            intro o ho hid
            obtain ⟨index, chunk, hget, rfl⟩ := mem_chunkOutputs.mp ho
            have hid : e.versionSet.nextFileId + index = i := by simpa using hid
            exact hi.2 ⟨index, (List.getElem?_eq_some_iff.mp hget).1, hid.symm⟩
          rw [hnone]
          exact h.retired i fun hlive ↦ hi.1 ⟨hlive, hinput⟩
      metadata := fun i info hinfo ↦ by
        rw [fileMeta_compactChunks] at hinfo
        split_ifs at hinfo with hinput
        rw [rowsOf, ssts_compactChunks, if_neg hinput]
        cases hfind : (e.chunkOutputs w chunks env).find? (fun o ↦ o.fileId == i) with
        | none =>
          rw [hfind] at hinfo
          exact h.metadata i info hinfo
        | some o =>
          rw [hfind] at hinfo
          exact ⟨o.env, (Option.some.inj hinfo).symm⟩
      begun := fun key p hp ↦ h.begun key p (hsub key hp)
      unique := fun key p hp q hq ↦ h.unique key p (hsub key hp) q (hsub key hq) }

end Compaction

theorem splits_singleton (e : Engine) (src tgt : ℕ) :
    e.Splits src tgt [e.compactionInputs src tgt] :=
  fun i ↦ by simp

theorem splits_splitBySize (e : Engine) (src tgt : ℕ) (maxBytes : ℕ) :
    e.Splits src tgt (splitBySize (e.compactionInputs src tgt) e.versionSet maxBytes) := by
  intro i
  rw [← List.mem_flatten, flatten_splitBySize]

/-! ## Runs -/

inductive Op
  | write (txId : ℕ) (mutations : List Mutation)
  | flush (env : SstEnv)
  | compact (sourceLevel targetLevel : ℕ) (env : SstEnv)
  | subCompact (sourceLevel targetLevel watermark : ℕ) (env : ℕ → SstEnv)
  | get (key : Bytes) (snapshot : ℕ)

def exec (e : Engine) : Op → Engine
  | .write txId mutations =>
    match e.writeWithTx txId mutations with
    | .ok (_, e') => e'
    | .error _ => e
  | .flush env => e.flush env
  | .compact sourceLevel targetLevel env => e.compact sourceLevel targetLevel env
  | .subCompact sourceLevel targetLevel watermark env =>
    e.subCompact sourceLevel targetLevel watermark env
  | .get key snapshot => (e.get key snapshot).2

def step (e : Engine) (op : Op) : Option Engine := some (e.exec op)

theorem exec_write (e : Engine) (txId : ℕ) (ms : List Mutation) :
    e.exec (.write txId ms) = e ∨ e.exec (.write txId ms) = e.committed txId ms := by
  by_cases hnil : ms = []
  · simp [exec, writeWithTx, hnil]
  · by_cases htx : txId = 0
    · simp [exec, writeWithTx, htx, hnil]
    · simp [exec, writeWithTx, htx, hnil, committed]

theorem exec_compact (e : Engine) (src tgt : ℕ) (env : SstEnv) :
    e.exec (.compact src tgt env) = e ∨ 2 ≤ (e.compactionInputs src tgt).length ∧
      e.exec (.compact src tgt env) =
        e.merged src tgt e.watermark [e.compactionInputs src tgt] fun _ ↦ env := by
  simp only [exec, compact, compactWithWatermark]
  split_ifs with hlen
  · exact Or.inl rfl
  · exact Or.inr ⟨not_lt.mp hlen, rfl⟩

theorem exec_subCompact (e : Engine) (src tgt w : ℕ) (env : ℕ → SstEnv) :
    e.exec (.subCompact src tgt w env) = e ∨ 2 ≤ (e.compactionInputs src tgt).length ∧
      e.exec (.subCompact src tgt w env) = e.merged src tgt w
        (splitBySize (e.compactionInputs src tgt) e.versionSet maxChunkBytes) env := by
  simp only [exec, subCompact]
  split_ifs with hlen
  · exact Or.inl rfl
  · exact Or.inr ⟨not_lt.mp hlen, rfl⟩

theorem get_snd (e : Engine) (key : Bytes) (s : ℕ) :
    ∃ cache, (e.get key s).2 = { e with hotKeyCache := cache } := by
  unfold get
  split
  · exact ⟨e.hotKeyCache, rfl⟩
  · split
    · exact ⟨e.hotKeyCache, rfl⟩
    · split
      · exact ⟨e.hotKeyCache, rfl⟩
      · exact ⟨_, rfl⟩

theorem Inv.setCache (h : e.Inv) (cache : Std.ExtTreeMap Bytes ℕ) :
    ({ e with hotKeyCache := cache } : Engine).Inv :=
  ⟨h.versionSet, h.memtable_tiled, h.sorted, h.tiled, h.retired, h.metadata, h.begun, h.unique⟩

theorem Inv.exec (h : e.Inv) (op : Op) : (e.exec op).Inv := by
  cases op with
  | write txId ms =>
    rcases e.exec_write txId ms with heq | heq <;> rw [heq]
    · exact h
    · exact h.committed
  | flush env => exact h.flush env
  | compact src tgt env =>
    rcases e.exec_compact src tgt env with heq | ⟨-, heq⟩ <;> rw [heq]
    · exact h
    · exact h.compactChunks (e.splits_singleton src tgt)
  | subCompact src tgt w env =>
    rcases e.exec_subCompact src tgt w env with heq | ⟨-, heq⟩ <;> rw [heq]
    · exact h
    · exact h.compactChunks (e.splits_splitBySize src tgt maxChunkBytes)
  | get key s =>
    obtain ⟨cache, heq⟩ := e.get_snd key s
    change (e.get key s).2.Inv
    rw [heq]
    exact h.setCache cache

/-- Every engine reached by a run of calls from an empty one satisfies the
invariant. -/
theorem inv_of_run {ops : List Op} (h : run step initial ops = some e) : e.Inv :=
  StepsMeet.run_invariant
    (fun _ op _ hinv _ hstep ↦ Option.some.inj hstep ▸ hinv.exec op)
    (stepsMeet_true initial ops) inv_initial h

end Engine

end HatP
