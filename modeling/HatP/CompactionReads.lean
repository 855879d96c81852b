import HatP.Invariant

/-!
# Compactions preserve reads

A compaction recomputes the intervals of each chunk on its own and drops what
they show to be superseded at the watermark.  A reader at or after the
watermark still finds the version it found before.
-/

namespace HatP

open Newest

namespace Engine

/-- `p` is the newest version whose interval contains `s`. -/
def NewestVisible (versions : Set VersionedValue) (s : ℕ) (p : ℕ × Option Bytes) : Prop :=
  ∃ v ∈ versions, v.visibleAt s = true ∧ v.stamp = p ∧
    ∀ u ∈ versions, u.visibleAt s = true → u.beginTs ≤ v.beginTs

instance (vs : List VersionedValue) (s : ℕ) (p : ℕ × Option Bytes) :
    Decidable (NewestVisible {v | v ∈ vs} s p) :=
  inferInstanceAs (Decidable (∃ v ∈ vs, v.visibleAt s = true ∧ v.stamp = p ∧
    ∀ u ∈ vs, u.visibleAt s = true → u.beginTs ≤ v.beginTs))

/-- Every live file lists the versions of a key newest first, with contiguous
intervals and an open-ended newest version. -/
def TiledFiles (e : Engine) : Prop :=
  ∀ i, e.IsLive i → ∀ key, Descending (versionsOf (e.rowsOf i) key) ∧
    EndsFrom openEndedTs (versionsOf (e.rowsOf i) key)

/-! ## Visible and begun versions -/

variable {e : Engine}

theorem exists_visible_ge {s : ℕ} {v : VersionedValue} {vs : List VersionedValue}
    (hends : EndsFrom openEndedTs vs) (hdesc : Descending vs) (hs : s < openEndedTs)
    (hv : v ∈ vs) (hvs : v.beginTs ≤ s) :
    ∃ u ∈ vs, u.visibleAt s = true ∧ v.beginTs ≤ u.beginTs := by
  have hsome : (vs.find? (·.visibleAt s)).isSome := by
    rw [find?_visibleAt hs hends]
    exact List.find?_isSome.mpr ⟨v, hv, decide_eq_true hvs⟩
  obtain ⟨u, hu⟩ := Option.isSome_iff_exists.mp hsome
  have hsees : u.visibleAt s = true := by simpa using List.find?_some hu
  rw [find?_visibleAt hs hends] at hu
  obtain ⟨hmem, -, hmax⟩ := isNewestAt_of_find? hdesc hu
  exact ⟨u, hmem, hsees, hmax v hv hvs⟩

/-- In tiled files the newest visible version is the newest one that has begun. -/
theorem newestVisible_iff {key : Bytes} {s : ℕ} {p : ℕ × Option Bytes}
    (htiled : e.TiledFiles) (hs : s < openEndedTs) :
    NewestVisible (e.liveVersions key) s p ↔ IsNewestAt Prod.fst (e.liveStamps key) s p := by
  constructor
  · rintro ⟨v, hv, hsees, rfl, hmax⟩
    refine ⟨Set.mem_image_of_mem _ hv, (VersionedValue.visibleAt_eq_true.mp hsees).1, ?_⟩
    rintro q ⟨u, ⟨i, hi, hu⟩, rfl⟩ hus
    obtain ⟨x, hx, hxs, hux⟩ :=
      exists_visible_ge (htiled i hi key).2 (htiled i hi key).1 hs hu hus
    exact hux.trans (hmax x ⟨i, hi, hx⟩ hxs)
  · rintro ⟨⟨v, ⟨i, hi, hv⟩, rfl⟩, hvs, hmax⟩
    obtain ⟨u, hu, hsees, hvu⟩ :=
      exists_visible_ge (htiled i hi key).2 (htiled i hi key).1 hs hv hvs
    have hbegun : ∀ x : VersionedValue, x.visibleAt s = true → x.beginTs ≤ s :=
      fun x hx ↦ (VersionedValue.visibleAt_eq_true.mp hx).1
    have huv : u.beginTs ≤ v.beginTs :=
      hmax u.stamp (Set.mem_image_of_mem _ ⟨i, hi, hu⟩) (hbegun u hsees)
    obtain rfl := (htiled i hi key).1.eq_of_beginTs hu hv (le_antisymm huv hvu)
    exact ⟨u, ⟨i, hi, hu⟩, hsees, rfl, fun x hx hxs ↦
      hmax x.stamp (Set.mem_image_of_mem _ hx) (hbegun x hxs)⟩

/-! ## One compaction -/

theorem tiledFiles_compactChunks {src tgt w : ℕ} {chunks : List (List ℕ)}
    {env : ℕ → SstEnv} (hwf : e.versionSet.WellFormed) (htiled : e.TiledFiles) :
    (e.merged src tgt w chunks env).TiledFiles := by
  intro i hlive key
  rcases (isLive_compactChunks hwf).mp hlive with ⟨⟨l, hl⟩, hi⟩ | ⟨index, hlt, rfl⟩
  · rw [rowsOf_eq_of_ssts (ssts_compactChunks_kept hi (hwf.fresh hl))]
    exact htiled i ⟨l, hl⟩ key
  · rw [rowsOf_output hwf (List.getElem?_eq_getElem hlt)]
    exact ⟨(sorted_dedupSuperseded _ w).descending key, tiled_dedupSuperseded _ w key⟩

/-- One compaction of the inputs of two levels: the two entry points of the
engine, and any other way to split the inputs into chunks. -/
inductive Compacts (e : Engine) (src tgt w : ℕ) : Engine → Prop
  | compact (env : SstEnv) : Compacts e src tgt w (e.compactWithWatermark src tgt w env)
  | subCompact (env : ℕ → SstEnv) : Compacts e src tgt w (e.subCompact src tgt w env)
  | chunks {chunks : List (List ℕ)} (env : ℕ → SstEnv) (hsplit : e.Splits src tgt chunks) :
      Compacts e src tgt w (e.merged src tgt w chunks env)

theorem Compacts.eq_or_chunks {e' : Engine} {src tgt w : ℕ} (h : Compacts e src tgt w e') :
    e' = e ∨ ∃ chunks env, e.Splits src tgt chunks ∧ e' = e.merged src tgt w chunks env := by
  cases h with
  | compact env =>
    unfold compactWithWatermark
    dsimp only
    split_ifs with hlen
    · exact Or.inl rfl
    · exact Or.inr ⟨_, _, e.splits_singleton src tgt, rfl⟩
  | subCompact env =>
    exact (e.exec_subCompact src tgt w env).imp_right fun h ↦
      ⟨_, _, e.splits_splitBySize src tgt maxChunkBytes, h.2⟩
  | chunks env hsplit => exact Or.inr ⟨_, env, hsplit, rfl⟩

/-- A compaction with watermark `w` changes no read at or after `w`; its
outputs are sorted without repeats, contiguous with an open-ended newest
version per key; the newest version of every key stays. -/
theorem compaction_preserves_reads {e e' : Engine} {src tgt w : ℕ}
    (hwf : e.versionSet.WellFormed) (htiled : e.TiledFiles) (hcopies : e.Copies)
    (h : Compacts e src tgt w e') :
    (∀ key s p, w ≤ s → s < openEndedTs →
      (NewestVisible (e.liveVersions key) s p ↔ NewestVisible (e'.liveVersions key) s p)) ∧
    (∀ i, e'.IsLive i → ¬e.IsLive i → SortedRows (e'.rowsOf i) ∧ TiledRows (e'.rowsOf i)) ∧
    ∀ key t, IsGreatest (VersionedValue.beginTs '' e.liveVersions key) t ↔
      IsGreatest (VersionedValue.beginTs '' e'.liveVersions key) t := by
  rcases h.eq_or_chunks with rfl | ⟨chunks, env, hsplit, rfl⟩
  · exact ⟨fun _ _ _ _ _ ↦ Iff.rfl, fun i hlive hnot ↦ absurd hlive hnot, fun _ _ ↦ Iff.rfl⟩
  refine ⟨fun key s p hws hs ↦ ?_, fun i hlive hnot ↦ ?_, fun key t ↦ ?_⟩
  · rw [newestVisible_iff htiled hs, newestVisible_iff (tiledFiles_compactChunks hwf htiled) hs]
    exact isNewestAt_prune_iff hws (liveStamps_compactChunks_subset hwf hsplit key)
      fun q hq hkeep ↦ stamp_kept_compactChunks hwf hsplit hcopies hq hkeep
  · rcases (isLive_compactChunks hwf).mp hlive with ⟨hold, -⟩ | ⟨index, hlt, rfl⟩
    · exact absurd hold hnot
    · rw [rowsOf_output hwf (List.getElem?_eq_getElem hlt)]
      exact ⟨sorted_dedupSuperseded _ w, tiled_dedupSuperseded _ w⟩
  · have hfst : ∀ e : Engine, Prod.fst '' e.liveStamps key =
        VersionedValue.beginTs '' e.liveVersions key :=
      fun e ↦ by rw [liveStamps, Set.image_image]; rfl
    rw [← hfst, ← hfst]
    exact isGreatest_prune_iff (liveStamps_compactChunks_subset hwf hsplit key)
      fun q hq hkeep ↦ stamp_kept_compactChunks hwf hsplit hcopies hq hkeep

theorem Inv.tiledFiles (h : e.Inv) : e.TiledFiles :=
  fun i hi key ↦ ⟨(h.sorted i hi).descending key, h.tiled i hi key⟩

def plainEnv : SstEnv := ⟨100, 0, none, true⟩

def flushedTwice : List Op :=
  [.write 1 [.put [107] [1]], .flush plainEnv, .write 2 [.put [107] [2]], .flush plainEnv]

theorem compaction_preserves_reads_flushedTwice :
    ∃ e, Transition.run step initial flushedTwice = some e ∧ e.versionSet.files 0 = [0, 1] ∧
      (e.compactWithWatermark 0 1 1 plainEnv).versionSet.files 1 = [2] ∧
      NewestVisible ((e.compactWithWatermark 0 1 1 plainEnv).liveVersions [107]) 1
        (1, some [1]) := by
  let e := flushedTwice.foldl exec initial
  have hrun : Transition.run step initial flushedTwice = some e := rfl
  have hinv := inv_of_run hrun
  refine ⟨e, hrun, by decide, by decide, ?_⟩
  refine ((compaction_preserves_reads hinv.versionSet hinv.tiledFiles hinv.copies
    (.compact plainEnv)).1 [107] 1 (1, some [1]) le_rfl (by decide)).mp ?_
  rw [liveVersions_eq]
  decide

/-! ## Closed newest versions and conflicting copies -/

def twoFiles (a b : VersionedRow) : Engine :=
  { initial with
    versionSet := initial.versionSet.applied [.addFile 0 0 (handleMeta [a] plainEnv),
      .addFile 1 0 (handleMeta [b] plainEnv)]
    ssts := (initial.ssts.insert 0 (.write [a] plainEnv)).insert 1 (.write [b] plainEnv) }

theorem wellFormed_twoFiles (a b : VersionedRow) : (twoFiles a b).versionSet.WellFormed := by
  refine (VersionSet.wellFormed_initial.addFile 0 _ fun l hl ↦ ?_).addFile 0 _ fun l hl ↦ ?_
  · exact absurd (VersionSet.wellFormed_initial.fresh hl) (Nat.not_lt_zero 0)
  · rw [VersionSet.mem_files_addFile] at hl
    rcases hl with hl | ⟨-, hl⟩
    · exact absurd (VersionSet.wellFormed_initial.fresh hl) (Nat.not_lt_zero 1)
    · exact absurd hl (by decide)

theorem contiguous_twoFiles {a b : VersionedRow} (ha : a.version.beginTs < a.version.endTs)
    (hb : b.version.beginTs < b.version.endTs) {i : ℕ} (hi : (twoFiles a b).IsLive i)
    (key : Bytes) :
    Descending (versionsOf ((twoFiles a b).rowsOf i) key) ∧
      Contiguous (versionsOf ((twoFiles a b).rowsOf i) key) := by
  have hrows : (twoFiles a b).rowsOf 0 = [a] ∧ (twoFiles a b).rowsOf 1 = [b] := by
    simp only [twoFiles, rowsOf, Std.ExtTreeMap.getElem?_insert]
    exact ⟨rfl, rfl⟩
  have hsingle : ∀ row : VersionedRow, row.version.beginTs < row.version.endTs →
      Descending (versionsOf [row] key) ∧ Contiguous (versionsOf [row] key) := by
    intro row hrow
    rw [versionsOf_cons]
    split_ifs
    · exact ⟨List.pairwise_singleton _ _, ⟨_, rfl, trivial⟩, by simpa using hrow⟩
    · exact ⟨List.Pairwise.nil, ⟨0, trivial⟩, by simp⟩
  obtain ⟨l, hl⟩ := hi
  have hid : i = 0 ∨ i = 1 := by
    have hlt : i < 2 := (wellFormed_twoFiles a b).fresh hl
    omega
  rcases hid with rfl | rfl
  · exact hrows.1 ▸ hsingle a ha
  · exact hrows.2 ▸ hsingle b hb

def closedNewest : Engine :=
  twoFiles ⟨[107], ⟨some [1], 1, 3, 0⟩⟩ ⟨[108], ⟨some [2], 2, openEndedTs, 0⟩⟩

def conflicting : Engine :=
  twoFiles ⟨[107], ⟨some [1], 1, openEndedTs, 0⟩⟩ ⟨[107], ⟨some [2], 1, openEndedTs, 0⟩⟩

/-- Contiguous intervals alone are not enough: the merge reopens a newest
version that was closed, and of two values under one timestamp it keeps one. -/
theorem contiguous_files_not_enough :
    (closedNewest.versionSet.WellFormed ∧ conflicting.versionSet.WellFormed) ∧
    (∀ i, closedNewest.IsLive i → ∀ key, Contiguous (versionsOf (closedNewest.rowsOf i) key)) ∧
    (∀ i, conflicting.IsLive i → ∀ key, Contiguous (versionsOf (conflicting.rowsOf i) key)) ∧
    ¬NewestVisible (closedNewest.liveVersions [107]) 5 (1, some [1]) ∧
    NewestVisible ((closedNewest.compactWithWatermark 0 1 0 plainEnv).liveVersions [107]) 5
      (1, some [1]) ∧
    NewestVisible (conflicting.liveVersions [107]) 1 (1, some [2]) ∧
    ¬NewestVisible ((conflicting.compactWithWatermark 0 1 0 plainEnv).liveVersions [107]) 1
      (1, some [2]) := by
  refine ⟨⟨wellFormed_twoFiles _ _, wellFormed_twoFiles _ _⟩, fun i hi key ↦ ?_,
    fun i hi key ↦ ?_, ?_⟩
  · exact (contiguous_twoFiles (by decide) (by decide) hi key).2
  · exact (contiguous_twoFiles (by decide) (by decide) hi key).2
  · rw [liveVersions_eq, liveVersions_eq, liveVersions_eq, liveVersions_eq]
    decide

end Engine

end HatP
