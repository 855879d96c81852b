import HatP.Invariant

/-!
# One file per key and level

Below level zero a key should live in at most one file of a level.  A plain
compaction into the next level keeps that; a sub-compaction merges the chunks
of its inputs independently and keeps it exactly when no key is in two chunks.
-/

namespace HatP

open Transition

namespace Engine

def HoldsKey (e : Engine) (i : ℕ) (key : Bytes) : Prop :=
  versionsOf (e.rowsOf i) key ≠ []

/-- No key occurs in two files of one level from level one on. -/
def LevelDisjoint (e : Engine) : Prop :=
  ∀ l, 1 ≤ l → ∀ i ∈ e.versionSet.files l, ∀ j ∈ e.versionSet.files l, ∀ key,
    e.HoldsKey i key → e.HoldsKey j key → i = j

/-- The calls of a leveled history: compactions go into the next level. -/
inductive LevelOp
  | write (txId : ℕ) (mutations : List Mutation)
  | flush (env : SstEnv)
  | compact (level : ℕ) (env : SstEnv)
  | subCompact (level watermark : ℕ) (env : ℕ → SstEnv)

def LevelOp.toOp : LevelOp → Op
  | write txId mutations => .write txId mutations
  | flush env => .flush env
  | compact level env => .compact level (level + 1) env
  | subCompact level watermark env => .subCompact level (level + 1) watermark env

def levelStep (e : Engine) (op : LevelOp) : Option Engine := some (e.exec op.toOp)

/-- No key occurs in the files of two different chunks. -/
def ChunksDisjoint (e : Engine) (chunks : List (List ℕ)) : Prop :=
  ∀ (a b : ℕ) (chunk chunk' : List ℕ), chunks[a]? = some chunk → chunks[b]? = some chunk' → ∀ key,
    (∃ i ∈ chunk, e.HoldsKey i key) → (∃ j ∈ chunk', e.HoldsKey j key) → a = b

/-- Before a sub-compaction that runs, the split keeps each key in one chunk. -/
def SplitKeepsKeys (e : Engine) : LevelOp → Prop
  | .subCompact level _ _ =>
    2 ≤ (e.compactionInputs level (level + 1)).length →
      e.ChunksDisjoint
        (splitBySize (e.compactionInputs level (level + 1)) e.versionSet maxChunkBytes)
  | _ => True

/-! ## Keys of the outputs -/

variable {e : Engine}

theorem compactChunk_ne_nil_iff {chunk : List ℕ} {w : ℕ} {key : Bytes} :
    versionsOf (e.compactChunk chunk w) key ≠ [] ↔ ∃ i ∈ chunk, e.HoldsKey i key := by
  rw [compactChunk, Ne, versionsOf_dedupSuperseded_eq_nil_iff, ← Ne, ← List.length_pos_iff_ne_nil,
    List.length_pos_iff_exists_mem]
  constructor
  · rintro ⟨v, hv⟩
    obtain ⟨i, hi, u, hu, -⟩ := mem_versionsOf_chunk.mp hv
    exact ⟨i, hi, List.ne_nil_of_mem hu⟩
  · rintro ⟨i, hi, hkey⟩
    obtain ⟨u, hu⟩ := List.exists_mem_of_ne_nil _ hkey
    exact ⟨u.stored, mem_versionsOf_chunk.mpr ⟨i, hi, u, hu, rfl⟩⟩

section Compaction

variable {e : Engine} {level w : ℕ} {chunks : List (List ℕ)} {env : ℕ → SstEnv}

theorem mem_files_target (h : e.Inv) {i : ℕ} :
    i ∈ (e.merged level (level + 1) w chunks env).versionSet.files (level + 1) ↔
      ∃ index < chunks.length, i = e.versionSet.nextFileId + index := by
  rw [mem_files_compactChunks h.versionSet fun _ hi ↦ mem_compactionInputs.mp hi]
  constructor
  · rintro (⟨hl, hi⟩ | ⟨-, hi⟩)
    · exact absurd (mem_compactionInputs.mpr (Or.inr hl)) hi
    · exact hi
  · exact fun hi ↦ Or.inr ⟨rfl, hi⟩

theorem levelDisjoint_compactChunks (h : e.Inv) (hlevel : e.LevelDisjoint)
    (hchunks : e.ChunksDisjoint chunks) :
    (e.merged level (level + 1) w chunks env).LevelDisjoint := by
  intro l hl i hi j hj key hkeyi hkeyj
  by_cases htgt : l = level + 1
  · subst htgt
    obtain ⟨a, ha, rfl⟩ := (mem_files_target h).mp hi
    obtain ⟨b, hb, rfl⟩ := (mem_files_target h).mp hj
    have hga := List.getElem?_eq_getElem ha
    have hgb := List.getElem?_eq_getElem hb
    unfold HoldsKey at hkeyi hkeyj
    rw [rowsOf_output h.versionSet hga, compactChunk_ne_nil_iff] at hkeyi
    rw [rowsOf_output h.versionSet hgb, compactChunk_ne_nil_iff] at hkeyj
    rw [hchunks a b _ _ hga hgb key hkeyi hkeyj]
  · have hkept : ∀ {f}, f ∈ (e.merged level (level + 1) w chunks env).versionSet.files l →
        f ∈ e.versionSet.files l ∧ f ∉ e.compactionInputs level (level + 1) := by
      intro f hf
      rcases (mem_files_compactChunks h.versionSet
        fun _ hi ↦ mem_compactionInputs.mp hi).mp hf with hf | ⟨heq, -⟩
      · exact hf
      · exact absurd heq htgt
    obtain ⟨hi, hi'⟩ := hkept hi
    obtain ⟨hj, hj'⟩ := hkept hj
    unfold HoldsKey at hkeyi hkeyj
    rw [rowsOf_eq_of_ssts (ssts_compactChunks_kept hi' (h.versionSet.fresh hi))] at hkeyi
    rw [rowsOf_eq_of_ssts (ssts_compactChunks_kept hj' (h.versionSet.fresh hj))] at hkeyj
    exact hlevel l hl i hi j hj key hkeyi hkeyj

theorem chunksDisjoint_of_levelDisjoint (h : e.Inv)
    (hlevel : (e.merged level (level + 1) w chunks env).LevelDisjoint) :
    e.ChunksDisjoint chunks := by
  intro a b chunk chunk' ha hb key hkeya hkeyb
  have hmem : ∀ {n c}, chunks[n]? = some c → e.versionSet.nextFileId + n ∈
      (e.merged level (level + 1) w chunks env).versionSet.files (level + 1) :=
    fun hn ↦ (mem_files_target h).mpr ⟨_, (List.getElem?_eq_some_iff.mp hn).1, rfl⟩
  have heq := hlevel (level + 1) (Nat.le_add_left 1 level) _ (hmem ha) _ (hmem hb) key
    (by rw [HoldsKey, rowsOf_output h.versionSet ha]; exact compactChunk_ne_nil_iff.mpr hkeya)
    (by rw [HoldsKey, rowsOf_output h.versionSet hb]; exact compactChunk_ne_nil_iff.mpr hkeyb)
  omega

theorem chunksDisjoint_singleton (inputs : List ℕ) : e.ChunksDisjoint [inputs] := by
  intro a b chunk chunk' ha hb key _ _
  have hlt : ∀ {n : ℕ} {c}, [inputs][n]? = some c → n = 0 := by
    intro n c hn
    have := (List.getElem?_eq_some_iff.mp hn).1
    simpa using this
  rw [hlt ha, hlt hb]

end Compaction

/-! ## Runs -/

theorem LevelDisjoint.flush (hinv : e.Inv) (h : e.LevelDisjoint) (env : SstEnv) :
    (e.flush env).LevelDisjoint := by
  by_cases hne : e.memtable.drainInto = []
  · rwa [flush_of_nil hne]
  intro l hl i hi j hj key hkeyi hkeyj
  have hold : ∀ {f}, f ∈ (e.flush env).versionSet.files l →
      f ∈ e.versionSet.files l ∧ (e.flush env).rowsOf f = e.rowsOf f := by
    intro f hf
    rcases (mem_files_flush hne).mp hf with hf | ⟨rfl, -⟩
    · exact ⟨hf, rowsOf_flush_old hne (hinv.versionSet.fresh hf).ne⟩
    · exact absurd hl (by decide)
  obtain ⟨hi, hrowsi⟩ := hold hi
  obtain ⟨hj, hrowsj⟩ := hold hj
  unfold HoldsKey at hkeyi hkeyj
  rw [hrowsi] at hkeyi
  rw [hrowsj] at hkeyj
  exact h l hl i hi j hj key hkeyi hkeyj

theorem levelDisjoint_exec {op : LevelOp} (hinv : e.Inv) (h : e.LevelDisjoint)
    (hcond : e.SplitKeepsKeys op) : (e.exec op.toOp).LevelDisjoint := by
  cases op with
  | write txId ms =>
    rcases e.exec_write txId ms with heq | heq
    · rwa [LevelOp.toOp, heq]
    · rw [LevelOp.toOp, heq]
      exact h
  | flush env => exact h.flush hinv env
  | compact level env =>
    rcases e.exec_compact level (level + 1) env with heq | ⟨-, heq⟩
    · rwa [LevelOp.toOp, heq]
    · rw [LevelOp.toOp, heq]
      exact levelDisjoint_compactChunks hinv h (chunksDisjoint_singleton _)
  | subCompact level w env =>
    rcases e.exec_subCompact level (level + 1) w env with heq | ⟨hlen, heq⟩
    · rwa [LevelOp.toOp, heq]
    · rw [LevelOp.toOp, heq]
      exact levelDisjoint_compactChunks hinv h (hcond hlen)

theorem splitKeepsKeys_of_exec {op : LevelOp} (hinv : e.Inv)
    (h : (e.exec op.toOp).LevelDisjoint) : e.SplitKeepsKeys op := by
  cases op with
  | subCompact level w env =>
    intro hlen
    have heq : e.exec (.subCompact level (level + 1) w env) = _ :=
      if_neg (not_lt.mpr hlen)
    rw [LevelOp.toOp, heq] at h
    exact chunksDisjoint_of_levelDisjoint hinv h
  | write txId ms | flush env | compact level env => trivial

/-- Along a leveled history from an empty engine each key stays in at most one
file per level from level one on, exactly when every sub-compaction that runs
splits its inputs so that no key is in two chunks. -/
theorem levelDisjoint_along_iff (ops : List LevelOp) :
    Along levelStep LevelDisjoint initial ops ↔ StepsMeet levelStep SplitKeepsKeys initial ops := by
  have hinitial : initial.LevelDisjoint := by
    intro l _ i hi
    exact absurd (inv_initial.versionSet.fresh hi) (Nat.not_lt_zero i)
  refine along_iff_stepsMeet (I := fun e ↦ e.Inv ∧ e.LevelDisjoint) ?_
    (fun e he ↦ he.2) ?_ ⟨inv_initial, hinitial⟩
  · intro e op t he hcond hstep
    obtain rfl := Option.some.inj hstep
    exact ⟨he.1.exec op.toOp, levelDisjoint_exec he.1 he.2 hcond⟩
  · intro e op t he hstep ht
    obtain rfl := Option.some.inj hstep
    exact splitKeepsKeys_of_exec he.1 ht

def largeEnv : SstEnv := ⟨maxChunkBytes, 0, none, true⟩

def splitKeyHistory : List LevelOp :=
  [.write 1 [.put [107] [1]], .flush largeEnv, .write 2 [.put [107] [2]], .flush largeEnv,
    .subCompact 0 2 fun _ ↦ largeEnv]

/-- Two flushed files too large for one chunk: the sub-compaction writes the key
into two files of level one. -/
theorem subCompact_splits_key : ¬Along levelStep LevelDisjoint initial splitKeyHistory := by
  rw [along_iff]
  intro h
  have hlevel := h splitKeyHistory (splitKeyHistory.foldl (fun e op ↦ e.exec op.toOp) initial)
    (List.prefix_refl _) rfl
  exact absurd (hlevel 1 le_rfl 2 (by decide) 3 (by decide) [107] (by unfold HoldsKey; decide)
    (by unfold HoldsKey; decide)) (by decide)

end Engine

end HatP
