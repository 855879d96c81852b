import HatP.HotKeyCache
import HatP.Tables.RangeScan

/-!
# What point reads rely on

In every history the memtable is newer than the files, the live files are there
with the sidecars of their rows, and the hot-key cache leads to ids that have been
given out.
-/

namespace HatP

namespace Engine

variable {e e' : Engine}

/-- The versions in the memtable are newer than those in the files. -/
def NewerThanFiles (e : Engine) : Prop :=
  ∀ key, ∀ p ∈ stamps (e.memtable.chain key).versions, ∀ q ∈ e.liveStamps key, q.1 < p.1

def FilesWritten (e : Engine) : Prop :=
  ∀ (i : ℕ) file, e.ssts[i]? = some file → ∃ rows env, file = .write rows env

def FilesPresent (e : Engine) : Prop :=
  ∀ i, e.IsLive i → (e.ssts[i]?).isSome = true

def RoutesUsed (e : Engine) : Prop :=
  ∀ (key : Bytes) (f : ℕ), e.hotKeyCache[key]? = some f → f < e.versionSet.nextFileId

structure ReadInv (e : Engine) : Prop where
  inv : e.Inv
  newer : e.NewerThanFiles
  written : e.FilesWritten
  present : e.FilesPresent
  used : e.RoutesUsed

/-! ## The parts -/

theorem NewerThanFiles.mono (h : e.NewerThanFiles)
    (hchain : ∀ key, stamps (e'.memtable.chain key).versions ⊆
      stamps (e.memtable.chain key).versions)
    (hlive : ∀ key, e'.liveStamps key ⊆ e.liveStamps key) : e'.NewerThanFiles :=
  fun key p hp q hq ↦ h key p (hchain key hp) q (hlive key hq)

theorem newerThanFiles_of_empty (hempty : ∀ key, (e.memtable.chain key).versions = []) :
    e.NewerThanFiles := by
  intro key p hp
  rw [hempty key, stamps_nil] at hp
  exact absurd hp (Set.notMem_empty p)

theorem FilesWritten.of_ssts (h : e.FilesWritten)
    (hssts : ∀ i : ℕ, e'.ssts[i]? = none ∨ e'.ssts[i]? = e.ssts[i]? ∨
      ∃ rows env, e'.ssts[i]? = some (.write rows env)) : e'.FilesWritten := by
  intro i file hfile
  rcases hssts i with hnone | hsame | ⟨rows, env, hwritten⟩
  · exact absurd (hfile.symm.trans hnone) (Option.some_ne_none file)
  · exact h i file (hsame ▸ hfile)
  · exact ⟨rows, env, Option.some.inj (hfile.symm.trans hwritten)⟩

theorem FilesWritten.keyIndexFor (h : e.FilesWritten) {i : ℕ} {index : KeyIndex}
    (hindex : e.keyIndexFor i = some index) : index = KeyIndex.fromRows (e.rowsOf i) := by
  obtain ⟨file, hfile, hsidecar⟩ := Option.bind_eq_some_iff.mp hindex
  obtain ⟨rows, env, rfl⟩ := h i file hfile
  rw [rowsOf, hfile]
  rw [SstFile.write] at hsidecar
  dsimp only at hsidecar
  split at hsidecar
  · exact (Option.some.inj hsidecar).symm
  · cases hsidecar

theorem FilesWritten.contains_bloomFor (h : e.FilesWritten) {i : ℕ} {filter : BloomFilter}
    {row : VersionedRow} (hfilter : e.bloomFor i = some filter) (hrow : row ∈ e.rowsOf i) :
    filter.contains row.key = true := by
  obtain ⟨file, hfile, hsidecar⟩ := Option.bind_eq_some_iff.mp hfilter
  obtain ⟨rows, env, rfl⟩ := h i file hfile
  rw [rowsOf, hfile] at hrow
  obtain ⟨size, -, rfl⟩ := Option.map_eq_some_iff.mp hsidecar
  exact contains_writeBloomFor hrow size

theorem RoutesUsed.of_cache (h : e.RoutesUsed) (hcache : e'.hotKeyCache = e.hotKeyCache)
    (hnext : e.versionSet.nextFileId ≤ e'.versionSet.nextFileId) : e'.RoutesUsed :=
  fun key f hf ↦ (h key f (hcache ▸ hf)).trans_le hnext

theorem route_of_insert {cache : Std.ExtTreeMap Bytes ℕ} {key key' : Bytes} {i f : ℕ}
    (h : (hotKeyCacheInsert cache key i)[key']? = some f) : cache[key']? = some f ∨ f = i := by
  by_cases hkey : key' = key
  · subst hkey
    rw [hotKeyCacheInsert_self] at h
    exact .inr (Option.some.inj h).symm
  · exact .inl (hotKeyCacheInsert_other hkey h)

theorem route_of_search {key key' : Bytes} {level : ℕ → ℕ} {probe : ℕ → Probe} {f : ℕ}
    (files : List ℕ) (st : Search)
    (h : (files.foldl (searchStep key level probe) st).hotKeyCache[key']? = some f) :
    st.hotKeyCache[key']? = some f ∨ f ∈ files := by
  induction files generalizing st with
  | nil => exact .inl h
  | cons i files ih =>
    rcases ih (searchStep key level probe st i) h with hroute | hf
    · by_cases hskip : st.foundInLeveled = true ∧ 0 < level i
      · rw [searchStep_skip hskip] at hroute
        exact .inl hroute
      · cases hprobe : probe i with
        | absent =>
          rw [searchStep_absent hprobe] at hroute
          exact .inl hroute
        | found visible indexed =>
          rw [searchStep_found hskip hprobe] at hroute
          dsimp only at hroute
          split at hroute
          · rcases route_of_insert hroute with hold | rfl
            · exact .inl hold
            · exact .inr (.head _)
          · exact .inl hroute
    · exact .inr (List.mem_cons_of_mem i hf)

theorem RoutesUsed.get (h : e.RoutesUsed) (hinv : e.Inv) (key : Bytes) (s : ℕ) :
    (e.get key s).2.RoutesUsed := by
  cases hreach : e.reachesFiles key s with
  | false => rwa [get_snd_of_not_reaches hreach]
  | true =>
    rw [get_snd_of_reaches hreach]
    intro key' f hf
    rcases route_of_search _ _ hf with hold | hcandidate
    · exact h key' f hold
    · obtain ⟨l, hl⟩ := isLive_of_candidate hinv hcandidate
      exact hinv.versionSet.fresh hl

/-! ## The calls -/

theorem chain_initial (key : Bytes) : (initial.memtable.chain key).versions = [] := by
  change ((∅ : MemTable).chain key).versions = []
  rw [MemTable.chain_empty]
  rfl

theorem readInv_initial : initial.ReadInv where
  inv := inv_initial
  newer := newerThanFiles_of_empty chain_initial
  written i file hfile := by simp [initial] at hfile
  present i hi := absurd hi (not_isLive_initial i)
  used key f hf := by simp [initial] at hf

section

variable (h : e.ReadInv)

include h

theorem ReadInv.committed {txId : ℕ} {ms : List Mutation} : (e.committed txId ms).ReadInv where
  inv := h.inv.committed
  newer key p hp q hq := by
    have hold : q ∈ e.liveStamps key := hq
    rw [Engine.committed, MemTable.mem_stamps_applyMutationsBatch] at hp
    rcases hp with ⟨hts, -⟩ | ⟨-, hchain⟩
    · rw [hts]
      exact h.inv.begun key q (.inr hold)
    · exact h.newer key p hchain q hold
  written := h.written
  present := h.present
  used := h.used

theorem ReadInv.replayed (commits : List (ℕ × List Mutation)) : (e.replayed commits).ReadInv := by
  induction commits generalizing e with
  | nil => exact h
  | cons commit commits ih => exact ih h.committed

theorem ReadInv.restarted : e.restarted.ReadInv where
  inv := h.inv.restarted
  newer := newerThanFiles_of_empty chain_initial
  written := h.written
  present := h.present
  used key f hf := by simp [Engine.restarted] at hf

theorem ReadInv.flush (env : SstEnv) : (e.flush env).ReadInv := by
  by_cases hne : e.memtable.drainInto = []
  · rw [flush_of_nil hne]
    exact h
  have hcache : (e.flush env).hotKeyCache = e.hotKeyCache := by
    simp [Engine.flush, flushSstLocked, hne]
  refine ⟨h.inv.flush env, newerThanFiles_of_empty fun key ↦ ?_, h.written.of_ssts fun i ↦ ?_,
    fun i hi ↦ ?_, h.used.of_cache hcache ?_⟩
  · rw [chain_flush hne]
    rfl
  · rw [ssts_flush hne]
    split
    · exact .inr (.inr ⟨_, _, rfl⟩)
    · exact .inr (.inl rfl)
  · rw [ssts_flush hne]
    split
    next => rfl
    next hold =>
      rcases (isLive_flush hne).mp hi with hlive | rfl
      · exact h.present i hlive
      · exact absurd rfl hold
  · rw [versionSet_flush hne]
    exact e.versionSet.nextFileId_le_applied _

theorem ReadInv.compacts {src tgt w : ℕ} (hc : Compacts e src tgt w e') : e'.ReadInv := by
  rcases hc.eq_or_chunks with rfl | ⟨chunks, env, hsplit, rfl⟩
  · exact h
  refine ⟨h.inv.compactChunks hsplit, ?_, ?_, fun i hi ↦ ?_, ?_⟩
  · exact h.newer.mono (fun _ _ hp ↦ hp)
      fun key ↦ liveStamps_compactChunks_subset h.inv.versionSet hsplit key
  · refine h.written.of_ssts fun i ↦ ?_
    rw [ssts_compactChunks]
    split
    · exact .inl rfl
    · cases (e.chunkOutputs w chunks env).find? fun o ↦ o.fileId == i with
      | none => exact .inr (.inl rfl)
      | some o => exact .inr (.inr ⟨_, _, rfl⟩)
  · rcases (isLive_compactChunks h.inv.versionSet).mp hi with ⟨⟨l, hl⟩, hkept⟩ | ⟨index, hlt, rfl⟩
    · rw [ssts_compactChunks_kept hkept (h.inv.versionSet.fresh hl)]
      exact h.present i ⟨l, hl⟩
    · rw [ssts_compactChunks_output (inputs_lt h.inv.versionSet) (List.getElem?_eq_getElem hlt)]
      rfl
  · exact h.used.of_cache rfl (e.versionSet.nextFileId_le_applied _)

theorem ReadInv.get (key : Bytes) (s : ℕ) : (e.get key s).2.ReadInv := by
  have hused := h.used.get h.inv key s
  cases hreach : e.reachesFiles key s with
  | false => rwa [get_snd_of_not_reaches hreach]
  | true =>
    rw [get_snd_of_reaches hreach] at hused ⊢
    exact ⟨h.inv.setCache _, h.newer, h.written, h.present, hused⟩

theorem ReadInv.collectMemtable (watermark : ℕ) : (e.collectMemtable watermark).ReadInv where
  inv := h.inv.collectMemtable watermark
  newer := h.newer.mono (stamps_collectMemtable_subset h.inv watermark) fun _ _ hp ↦ hp
  written := h.written
  present := h.present
  used := h.used

theorem ReadInv.dropped (table : Bytes) : (e.dropped table).ReadInv where
  inv := h.inv.dropped table
  newer := h.newer.mono (fun key p hp ↦ by
    rw [chain_dropped] at hp
    split at hp
    · exact absurd hp (by simp [VersionChain.empty])
    · exact hp) fun _ _ hp ↦ hp
  written := h.written
  present := h.present
  used := h.used.of_cache rfl (e.versionSet.nextFileId_le_applied _)

theorem ReadInv.undropped (table : Bytes) : (e.undropped table).ReadInv where
  inv := h.inv.undropped table
  newer := h.newer
  written := h.written
  present := h.present
  used := h.used.of_cache rfl (e.versionSet.nextFileId_le_applied _)

end

end Engine

namespace LoggedEngine

variable {st st' : LoggedEngine}

theorem readInv_of_tableStep (h : st.engine.ReadInv) {op : TableOp}
    (hstep : st.tableStep op = some st') : st'.engine.ReadInv := by
  cases op with
  | get key snapshot =>
    cases hstep
    exact h.get key snapshot
  | call op =>
    cases moves_of_tableStep hstep with
    | refused => exact h
    | write w => exact h.committed
    | flush env walMaxSizeBytes => exact h.flush env
    | compact hc => exact h.compacts hc
    | reopen hreopen =>
      obtain ⟨_, _, commits, -, -, rfl⟩ := exists_commits_reopen hreopen
      exact h.restarted.replayed commits
  | collectMemtable watermark =>
    cases hstep
    exact h.collectMemtable watermark
  | dropTable table =>
    cases moves_of_tableStep hstep with
    | refused => exact h
    | dropTable table => exact h.dropped table
  | undropTable table =>
    cases moves_of_tableStep hstep with
    | refused => exact h
    | undropTable table => exact h.undropped table

end LoggedEngine

end HatP
