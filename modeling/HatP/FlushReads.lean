import HatP.ReadInvariant

/-!
# Reads across a flush

A flush moves the rows of the memtable into a file.  The scans see them there as
they were.  A point read does when no route of the hot-key cache comes before
the file and its key index can answer for every version.
-/

namespace HatP

namespace Engine

variable {value : Option Bytes} {v : VersionedValue}

structure SameScans (e e' : Engine) : Prop where
  scanRange : ∀ lower upper s, e'.scanRange lower upper s = e.scanRange lower upper s
  scanAll : ∀ s, e'.scanAll s = e.scanAll s

/-- Point reads and scans give the same answers. -/
structure SameReads (e e' : Engine) : Prop extends SameScans e e' where
  get : ∀ key s, (e'.get key s).1 = (e.get key s).1

/-! ## Scans -/

section Scans

variable {e e' : Engine} {key lower upper : Bytes} {s : ℕ}

theorem eq_of_increasing {β : Type*} {l l' : List (Bytes × β)}
    (h : (l.map Prod.fst).Pairwise (· < ·)) (h' : (l'.map Prod.fst).Pairwise (· < ·))
    (hmem : ∀ x, x ∈ l ↔ x ∈ l') : l = l' := by
  rw [List.pairwise_map] at h h'
  have hnodup : ∀ {l : List (Bytes × β)}, l.Pairwise (fun a b ↦ a.1 < b.1) → l.Nodup :=
    fun hl ↦ hl.imp fun hlt heq ↦ absurd (congrArg Prod.fst heq) hlt.ne
  have hperm : l.Perm l' := (List.perm_ext_iff_of_nodup (hnodup h) (hnodup h')).mpr hmem
  exact hperm.eq_of_pairwise (fun a b _ _ hab hba ↦ absurd (hab.trans hba) (lt_irrefl _)) h h'

def shownStamps (e : Engine) (key : Bytes) (s : ℕ) : Set (ℕ × Option Bytes) :=
  {p | ∃ x, e.Shows key s x ∧ x.stamp = p}

theorem shownStamps_subset (e : Engine) (key : Bytes) (s : ℕ) :
    e.shownStamps key s ⊆ e.heldStamps key := by
  rintro p ⟨x, hx, rfl⟩
  have hshows : e.ShowsIn e.IsLive key s x := hx
  rw [← stampsIn_isLive]
  exact hshows.stamp_mem.1

theorem Inv.unique_shown (h : e.Inv) (key : Bytes) (s : ℕ) :
    ∀ p ∈ e.shownStamps key s, ∀ q ∈ e.shownStamps key s, p.1 = q.1 → p = q :=
  fun p hp q hq ↦ h.unique key p (e.shownStamps_subset key s hp) q
    (e.shownStamps_subset key s hq)

theorem newestRows_value {rows : List VersionedRow} {shown : Set (ℕ × Option Bytes)}
    (hrows : ∀ p, (∃ x, ⟨key, x⟩ ∈ rows ∧ x.stamp = p) ↔ p ∈ shown)
    (hunique : ∀ p ∈ shown, ∀ q ∈ shown, p.1 = q.1 → p = q) (value : Option Bytes) :
    (∃ x, (newestRows rows)[key]? = some x ∧ x.value = value) ↔
      ∃ ts, (ts, value) ∈ shown ∧ ∀ q ∈ shown, q.1 ≤ ts := by
  constructor
  · rintro ⟨x, hx, rfl⟩
    obtain ⟨hmem, hmax⟩ := Newest.isNewest_of_merged hx
    refine ⟨x.beginTs, (hrows _).mp ⟨x, mem_map_entry.mp hmem, rfl⟩, fun q hq ↦ ?_⟩
    obtain ⟨y, hy, rfl⟩ := (hrows q).mpr hq
    exact hmax y (mem_map_entry.mpr hy)
  · rintro ⟨ts, hts, hmax⟩
    obtain ⟨x, hx, hstamp⟩ := (hrows _).mpr hts
    obtain ⟨y, hy⟩ : ∃ y, (newestRows rows)[key]? = some y :=
      Newest.exists_merged (mem_map_entry.mpr hx)
    obtain ⟨hmem, hbound⟩ := Newest.isNewest_of_merged hy
    have hyshown := (hrows y.stamp).mp ⟨y, mem_map_entry.mp hmem, rfl⟩
    have hle : ts ≤ y.beginTs := by
      have hge := hbound x (mem_map_entry.mpr hx)
      rwa [show x.beginTs = ts from congrArg Prod.fst hstamp] at hge
    have hsame := hunique _ hyshown _ hts (le_antisymm (hmax _ hyshown) hle)
    exact ⟨y, hy, congrArg Prod.snd hsame⟩

def ShowsValue (e : Engine) (key : Bytes) (s : ℕ) (value : Option Bytes) : Prop :=
  ∃ ts, (ts, value) ∈ e.shownStamps key s ∧ ∀ q ∈ e.shownStamps key s, q.1 ≤ ts

section

variable (h : e.Inv)

include h

theorem Inv.showsValue_unique {value' : Option Bytes}
    (hvalue : e.ShowsValue key s value) (hvalue' : e.ShowsValue key s value') :
    value = value' := by
  obtain ⟨ts, hts, hmax⟩ := hvalue
  obtain ⟨ts', hts', hmax'⟩ := hvalue'
  have hsame := h.unique_shown key s _ hts _ hts' (le_antisymm (hmax' _ hts) (hmax _ hts'))
  exact congrArg Prod.snd hsame

theorem Inv.mem_scanRange_shown {value : Bytes} :
    (key, value) ∈ e.scanRange lower upper s ↔
      (lower ≤ key ∧ key < upper) ∧ e.ShowsValue key s (some value) := by
  rw [mem_scanRange]
  by_cases hrange : lower ≤ key ∧ key < upper
  · have hrows : ∀ p, (∃ x, ⟨key, x⟩ ∈ e.rangeRows lower upper s ∧ x.stamp = p) ↔
        p ∈ e.shownStamps key s := fun p ↦ by
      simp only [mem_rangeRows h, and_iff_right hrange]
      rfl
    rw [newestRows_value hrows (h.unique_shown key s), and_iff_right hrange]
    rfl
  · refine ⟨?_, fun hboth ↦ absurd hboth.1 hrange⟩
    rintro ⟨x, hx, -⟩
    have hmem := mem_map_entry.mp (Newest.isNewest_of_merged hx).1
    exact absurd ((mem_rangeRows h).mp hmem).1 hrange

theorem Inv.mem_scanAll_shown : (key, value) ∈ e.scanAll s ↔ e.ShowsValue key s value := by
  have hrows : ∀ p, (∃ x, ⟨key, x⟩ ∈ e.allRows s ∧ x.stamp = p) ↔ p ∈ e.shownStamps key s :=
    fun p ↦ by
      simp only [mem_allRows]
      rfl
  rw [mem_scanAll, newestRows_value hrows (h.unique_shown key s)]
  rfl

theorem Inv.scanRange_congr (h' : e'.Inv)
    (hshown : ∀ key value, e'.ShowsValue key s value ↔ e.ShowsValue key s value) :
    e'.scanRange lower upper s = e.scanRange lower upper s := by
  apply eq_of_increasing (scanRange_pairwise _ _ _ _) (scanRange_pairwise _ _ _ _)
  rintro ⟨key, value⟩
  rw [h.mem_scanRange_shown, h'.mem_scanRange_shown, hshown]

theorem Inv.scanAll_congr (h' : e'.Inv)
    (hshown : ∀ key value, e'.ShowsValue key s value ↔ e.ShowsValue key s value) :
    e'.scanAll s = e.scanAll s := by
  apply eq_of_increasing (scanAll_pairwise _ _) (scanAll_pairwise _ _)
  rintro ⟨key, value⟩
  rw [h.mem_scanAll_shown, h'.mem_scanAll_shown, hshown]

theorem Inv.sameScans (h' : e'.Inv)
    (hshown : ∀ key s value, e'.ShowsValue key s value ↔ e.ShowsValue key s value) :
    SameScans e e' where
  scanRange _ _ s := h.scanRange_congr h' fun key ↦ hshown key s
  scanAll s := h.scanAll_congr h' fun key ↦ hshown key s

theorem Inv.showsValue_iff (hs : s < openEndedTs) (hkept : e.isDroppedPrefix key = false) :
    e.ShowsValue key s value ↔
      ∃ ts, Newest.IsNewestAt Prod.fst (e.heldStamps key) s (ts, value) := by
  refine exists_congr fun ts ↦ ?_
  rw [← stampsIn_isLive, h.newest_showsIn_iff hs hkept fun _ hi ↦ hi]
  constructor
  · rintro ⟨⟨x, hshows, hstamp⟩, hmax⟩
    refine ⟨x, hshows, hstamp, fun y hy ↦ ?_⟩
    rw [show x.beginTs = ts from congrArg Prod.fst hstamp]
    exact hmax y.stamp ⟨y, hy, rfl⟩
  · rintro ⟨x, hshows, hstamp, hmax⟩
    refine ⟨⟨x, hshows, hstamp⟩, ?_⟩
    rintro q ⟨y, hy, rfl⟩
    rw [← show x.beginTs = ts from congrArg Prod.fst hstamp]
    exact hmax y hy

end

theorem showsValue_congr (hshown : e'.shownStamps key s = e.shownStamps key s) :
    e'.ShowsValue key s value ↔ e.ShowsValue key s value := by
  rw [ShowsValue, ShowsValue, hshown]

end Scans

/-! ## The file of a flush -/

section Flush

variable {e : Engine} {env : SstEnv} {key : Bytes} {s i : ℕ}

theorem isDroppedPrefix_flush (e : Engine) (env : SstEnv) (key : Bytes) :
    (e.flush env).isDroppedPrefix key = e.isDroppedPrefix key := by
  rw [isDroppedPrefix, isDroppedPrefix, Engine.flush, flushSstLocked]
  dsimp only
  split_ifs
  · rfl
  · rfl

theorem mem_drainInto : ⟨key, v⟩ ∈ e.memtable.drainInto ↔ v ∈ (e.memtable.chain key).versions := by
  rw [← mem_versionsOf, MemTable.versionsOf_drainInto]

def RowsKept (e : Engine) : Prop :=
  ∀ row ∈ e.memtable.drainInto, e.isDroppedPrefix row.key = false

theorem shownStamps_flush (h : e.Inv) (hkept : e.RowsKept) (key : Bytes) (s : ℕ) :
    (e.flush env).shownStamps key s = e.shownStamps key s := by
  by_cases hne : e.memtable.drainInto = []
  · rw [flush_of_nil hne]
  ext p
  constructor
  · rintro ⟨x, ⟨hsees, hmem | ⟨hdropped, i, hi, v, hv, rfl⟩⟩, rfl⟩
    · rw [chain_flush hne] at hmem
      cases hmem
    · rw [isDroppedPrefix_flush] at hdropped
      rcases (mem_liveVersions_flush hne h.versionSet).mp ⟨i, hi, hv⟩ with ⟨j, hj, hold⟩ | hnew
      · exact ⟨v.stored, ⟨hsees, .inr ⟨hdropped, j, hj, v, hold, rfl⟩⟩, rfl⟩
      · exact ⟨v, ⟨hsees, .inl hnew⟩, rfl⟩
  · have hlive : ∀ v, v ∈ (e.flush env).liveVersions key → e.isDroppedPrefix key = false →
        v.visibleAt s = true → v.stamp ∈ (e.flush env).shownStamps key s := by
      rintro v ⟨i, hi, hv⟩ hdropped hsees
      refine ⟨v.stored, ⟨hsees, .inr ⟨?_, i, hi, v, hv, rfl⟩⟩, rfl⟩
      rw [isDroppedPrefix_flush]
      exact hdropped
    rintro ⟨x, ⟨hsees, hmem | ⟨hdropped, i, hi, v, hv, rfl⟩⟩, rfl⟩
    · exact hlive x ((mem_liveVersions_flush hne h.versionSet).mpr (.inr hmem))
        (hkept ⟨key, x⟩ (mem_drainInto.mpr hmem)) hsees
    · exact hlive v ((mem_liveVersions_flush hne h.versionSet).mpr (.inl ⟨i, hi, hv⟩)) hdropped
        hsees

theorem Inv.sameScans_flush (h : e.Inv) (hkept : e.RowsKept) : SameScans e (e.flush env) := by
  apply h.sameScans (h.flush env)
  exact fun key s value ↦ showsValue_congr (shownStamps_flush h hkept key s)

theorem indexable_of_tiled {rows : List VersionedRow} (hsorted : SortedRows rows)
    (htiled : TiledRows rows) (hbegun : ∀ row ∈ rows, row.version.beginTs < openEndedTs)
    (hsize : KeyIndex.layoutSize rows < 2 ^ 32) : KeyIndex.Indexable rows := by
  have hbelow : ∀ key, ∀ v ∈ versionsOf rows key, v.beginTs < openEndedTs :=
    fun key v hv ↦ hbegun _ (mem_versionsOf.mp hv)
  have hends : ∀ key, ∀ v ∈ versionsOf rows key, v.beginTs < v.endTs ∧ v.endTs ≤ openEndedTs :=
    fun key v hv ↦ endTs_le_of_endsFrom (hsorted.descending key) (htiled key) (hbelow key) hv
  refine ⟨hsorted, fun key ↦ ⟨⟨_, htiled key⟩, fun v hv ↦ (hends key v hv).1⟩, fun row hrow ↦ ?_,
    fun row hrow ↦ ?_, hsize⟩
  · exact (hbegun row hrow).trans (by decide)
  · exact ((hends row.key row.version (mem_versionsOf.mpr hrow)).2).trans_lt (by decide)

theorem Inv.indexable_drainInto (h : e.Inv) (hseq : e.commitSeq ≤ openEndedTs)
    (hsize : KeyIndex.layoutSize e.memtable.drainInto < 2 ^ 32) :
    KeyIndex.Indexable e.memtable.drainInto := by
  apply indexable_of_tiled e.memtable.sorted_drainInto h.memtable_tiled.drainInto _ hsize
  rintro ⟨key, v⟩ hrow
  exact (h.begun key v.stamp (.inl (stamp_mem_stamps (mem_drainInto.mp hrow)))).trans_le hseq

theorem Inv.indexable_rowsOf (h : e.Inv) (hseq : e.commitSeq ≤ openEndedTs) (hi : e.IsLive i)
    (hsize : KeyIndex.layoutSize (e.rowsOf i) < 2 ^ 32) : KeyIndex.Indexable (e.rowsOf i) := by
  apply indexable_of_tiled (h.sorted i hi) (h.tiled i hi) _ hsize
  rintro ⟨key, v⟩ hrow
  have hheld : v.stamp ∈ e.heldStamps key := .inr ⟨v, ⟨i, hi, mem_versionsOf.mpr hrow⟩, rfl⟩
  exact (h.begun key v.stamp hheld).trans_le hseq

theorem sstGet_drainInto (e : Engine) (key : Bytes) (s : ℕ) :
    sstGet e.memtable.drainInto key s = (e.memtable.get key s).map VersionedValue.stored := by
  rw [sstGet_eq_find?, MemTable.versionsOf_drainInto, MemTable.get_eq_chain_get]
  rfl

def Probe.visible : Probe → Option VersionedValue
  | .absent => none
  | .found visible _ => visible

/-- What makes a flushed file answer like the memtable did. -/
structure Servable (e : Engine) (env : SstEnv) : Prop where
  kept : e.RowsKept
  /-- No key is routed to another file. -/
  unrouted : ∀ row ∈ e.memtable.drainInto, e.hotKeyCache[row.key]? = none
  /-- A key index answers for one version of a key only. -/
  single : env.keyIndexWritten = true → ∀ key, (e.memtable.chain key).versions.length ≤ 1
  /-- The key indexes are below the limit of their 32-bit offsets. -/
  sized : KeyIndex.layoutSize e.memtable.drainInto < 2 ^ 32 ∧
    ∀ i, e.IsLive i → KeyIndex.layoutSize (e.rowsOf i) < 2 ^ 32

theorem rangeMayContain_of_candidate (hi : i ∈ e.versionSet.candidateFiles key) :
    e.rangeMayContain key i = true := by
  obtain ⟨info, hinfo, hmin, hmax⟩ := VersionSet.mem_candidateFiles.mp hi
  rw [rangeMayContain, hinfo, Option.all_some, decide_eq_true_eq]
  exact .inr (hmax.imp_right fun hle ↦ ⟨hmin, hle⟩)

theorem visible_probeFile (hrange : e.rangeMayContain key i = true)
    (hbloom : ∀ filter, e.bloomFor i = some filter → filter.contains key = true) :
    (e.probeFile key s i).visible = match e.keyIndexFor i with
      | some index => index.visible key s
      | none => sstGet (e.rowsOf i) key s := by
  have hpass : ((e.bloomFor i).any fun filter ↦ !filter.contains key) = false := by
    cases hfilter : e.bloomFor i with
    | none => rfl
    | some filter => simp [hbloom filter hfilter]
  rw [probeFile, hrange, hpass]
  simp only [Bool.not_true, Bool.false_eq_true, if_false]
  cases e.keyIndexFor i with
  | none =>
    dsimp only
    cases sstGet (e.rowsOf i) key s with
    | none | some version => rfl
  | some index =>
    dsimp only
    cases hget : index.get key with
    | none | some version => rw [KeyIndex.visible, hget]; rfl

theorem eq_of_visible_probeFile (h : (e.probeFile key s i).visible = some v) :
    (∃ index, e.keyIndexFor i = some index ∧ index.visible key s = some v) ∨
      e.keyIndexFor i = none ∧ sstGet (e.rowsOf i) key s = some v := by
  rw [probeFile] at h
  split at h
  next => cases h
  next =>
    split at h
    next => cases h
    next =>
      split at h
      next index hindex =>
        refine .inl ⟨index, hindex, ?_⟩
        split at h
        next version hget =>
          rw [KeyIndex.visible, hget]
          exact h
        next => cases h
      next hindex =>
        refine .inr ⟨hindex, ?_⟩
        split at h
        next version hget => exact hget.trans h
        next => cases h

section Written

variable (h : e.Inv) (hseq : e.commitSeq ≤ openEndedTs) (hservable : e.Servable env)
  (hne : e.memtable.drainInto ≠ [])

include hne

theorem keyIndexFor_flush_new : (e.flush env).keyIndexFor e.versionSet.nextFileId =
    if env.keyIndexWritten then some (KeyIndex.fromRows e.memtable.drainInto) else none := by
  rw [keyIndexFor, ssts_flush hne, if_pos rfl]
  rfl

include h hseq hservable

theorem visible_flush_new (key : Bytes) (s : ℕ) :
    (match (e.flush env).keyIndexFor e.versionSet.nextFileId with
      | some index => index.visible key s
      | none => sstGet ((e.flush env).rowsOf e.versionSet.nextFileId) key s) =
      (e.memtable.get key s).map VersionedValue.stored := by
  rw [keyIndexFor_flush_new hne, rowsOf_flush_new hne, ← sstGet_drainInto]
  cases hwritten : env.keyIndexWritten with
  | false => rfl
  | true =>
    have hindexable := h.indexable_drainInto hseq hservable.sized.1
    have hsingle : (versionsOf e.memtable.drainInto key).length ≤ 1 := by
      rw [MemTable.versionsOf_drainInto]
      exact hservable.single hwritten key
    simp only [if_true]
    exact KeyIndex.visible_eq_sstGet_of_single hindexable hsingle s

theorem probeFile_flush_new (hget : e.memtable.get key s = some v) :
    ((e.flush env).probeFile key s e.versionSet.nextFileId).visible = some v.stored ∧
      e.versionSet.nextFileId ∈ (e.flush env).versionSet.candidateFiles key := by
  have hmem : v ∈ (e.memtable.chain key).versions := by
    rw [MemTable.get_eq_chain_get] at hget
    exact List.mem_of_find?_eq_some hget
  have hrow := mem_drainInto.mpr hmem
  have hversions : versionsOf ((e.flush env).rowsOf e.versionSet.nextFileId) key ≠ [] := by
    rw [rowsOf_flush_new hne, MemTable.versionsOf_drainInto]
    exact List.ne_nil_of_mem hmem
  have hcandidate := candidate_of_holds (h.flush env) ((isLive_flush hne).mpr (.inr rfl)) hversions
  refine ⟨?_, hcandidate⟩
  rw [visible_probeFile, visible_flush_new h hseq hservable hne key s, hget]
  · rfl
  · exact rangeMayContain_of_candidate hcandidate
  · intro filter hfilter
    rw [bloomFor, ssts_flush hne, if_pos rfl] at hfilter
    obtain ⟨size, -, rfl⟩ := Option.map_eq_some_iff.mp hfilter
    exact contains_writeBloomFor hrow size

theorem probeFile_flush_new_none (hget : e.memtable.get key s = none) :
    ((e.flush env).probeFile key s e.versionSet.nextFileId).visible = none := by
  have hnone := visible_flush_new h hseq hservable hne key s
  rw [hget, Option.map_none] at hnone
  cases hvisible : ((e.flush env).probeFile key s e.versionSet.nextFileId).visible with
  | none => rfl
  | some v =>
    rcases eq_of_visible_probeFile hvisible with ⟨index, hindex, hv⟩ | ⟨hindex, hv⟩
    · rw [hindex] at hnone
      exact absurd (hv.symm.trans hnone) (Option.some_ne_none v)
    · rw [hindex] at hnone
      exact absurd (hv.symm.trans hnone) (Option.some_ne_none v)

end Written

/-! ## Point reads -/

theorem offers_answers_without {level : ℕ → ℕ} {probe : ℕ → Probe} {found : Bool}
    {files : List ℕ} {f : ℕ} (hlevel : level f = 0) (hvisible : (probe f).visible = none) :
    offers (answers level probe found (files.filter fun i ↦ decide (i ≠ f))) =
      offers (answers level probe found files) := by
  induction files generalizing found with
  | nil => rfl
  | cons i files ih =>
    by_cases hi : i = f
    · subst hi
      rw [List.filter_cons_of_neg (by simp), ih, answers, if_neg (by simp [hlevel])]
      cases hprobe : probe i with
      | absent => rfl
      | found visible indexed =>
        obtain rfl : visible = none := by
          rw [hprobe] at hvisible
          exact hvisible
        dsimp only
        rw [offers_cons_none, hlevel]
        simp only [lt_irrefl, decide_false, Bool.or_false]
    · rw [List.filter_cons_of_pos (by simpa using hi), answers, answers]
      split
      · exact ih
      · cases probe i with
        | absent => exact ih
        | found visible indexed =>
          cases visible with
          | none =>
            dsimp only
            rw [offers_cons_none, offers_cons_none, ih]
          | some v =>
            dsimp only
            rw [offers_cons_some, offers_cons_some, ih]

theorem stamp_of_offer (h : e.Inv) (hseq : e.commitSeq ≤ openEndedTs)
    (hservable : e.Servable env) (hwritten : e.FilesWritten) (hi : e.IsLive i) {u : VersionedValue}
    (hvisible : (e.probeFile key s i).visible = some u) : u.stamp ∈ e.liveStamps key := by
  rcases eq_of_visible_probeFile hvisible with ⟨index, hindex, hu⟩ | ⟨-, hu⟩
  · obtain rfl := hwritten.keyIndexFor hindex
    have hindexable := h.indexable_rowsOf hseq hi (hservable.sized.2 i hi)
    obtain ⟨hget, -⟩ := Option.filter_eq_some_iff.mp hu
    obtain ⟨v, hv, rfl⟩ := KeyIndex.get_fromRows_some hindexable hget
    exact ⟨v, ⟨i, hi, hv⟩, rfl⟩
  · obtain ⟨v, hv, -, rfl⟩ := (sstGet_eq_some_iff h hi).mp hu
    exact ⟨v, ⟨i, hi, hv⟩, rfl⟩

section Gets

variable (h : e.Inv) (hseq : e.commitSeq ≤ openEndedTs) (hservable : e.Servable env)
  (hne : e.memtable.drainInto ≠ [])

include h hne

theorem levelOf_flush_new : (e.flush env).levelOf e.versionSet.nextFileId = 0 := by
  rw [levelOf, (h.flush env).versionSet.fileLevelFor_eq
    ((mem_files_flush hne).mpr (.inr ⟨rfl, rfl⟩))]
  rfl

include hseq hservable

theorem searchFiles_flush_none (hget : e.memtable.get key s = none) :
    ((e.flush env).searchFiles key s).newest = (e.searchFiles key s).newest := by
  have hfiles : ((e.flush env).versionSet.candidateFiles key).filter
      (fun i ↦ decide (i ≠ e.versionSet.nextFileId)) = e.versionSet.candidateFiles key := by
    have hinfo : ∀ i, decide (i ≠ e.versionSet.nextFileId) = true →
        (e.flush env).versionSet.fileMeta[i]? = e.versionSet.fileMeta[i]? := fun i hi ↦ by
      rw [versionSet_flush hne]
      change (e.versionSet.apply (.addFile _ 0 _)).fileMeta[i]? = _
      rw [VersionSet.getElem?_fileMeta_addFile, if_neg (of_decide_eq_true hi).symm]
    rw [VersionSet.filter_candidateFiles_congr hinfo, List.filter_eq_self]
    intro i hi
    rw [decide_eq_true_eq]
    rintro rfl
    exact not_live_of_le h le_rfl (isLive_of_candidate h hi)
  have hnone := probeFile_flush_new_none h hseq hservable hne hget
  rw [searchFiles, search_newest, searchFiles, search_newest,
    ← offers_answers_without (levelOf_flush_new h hne) hnone, hfiles]
  congr 3
  apply answers_congr
  intro i hi
  have hsame : SameFile e (e.flush env) i := sameFile_flush h hne (isLive_of_candidate h hi)
  exact ⟨hsame.level, hsame.probeFile key s⟩

theorem searchFiles_flush_some (hnewer : e.NewerThanFiles) (hwritten : e.FilesWritten)
    (hget : e.memtable.get key s = some v) :
    ((e.flush env).searchFiles key s).newest = some v.stored := by
  obtain ⟨hvisible, hcandidate⟩ := probeFile_flush_new h hseq hservable hne hget
  have hmem : v ∈ (e.memtable.chain key).versions := by
    rw [MemTable.get_eq_chain_get] at hget
    exact List.mem_of_find?_eq_some hget
  obtain ⟨indexed, hprobe⟩ : ∃ indexed,
      (e.flush env).probeFile key s e.versionSet.nextFileId = .found (some v.stored) indexed := by
    cases hprobe : (e.flush env).probeFile key s e.versionSet.nextFileId with
    | absent =>
      rw [hprobe] at hvisible
      cases hvisible
    | found visible indexed =>
      rw [hprobe] at hvisible
      obtain rfl : visible = some v.stored := hvisible
      exact ⟨indexed, rfl⟩
  have hoffer : (e.versionSet.nextFileId, v.stored) ∈ offers (answers (e.flush env).levelOf
      ((e.flush env).probeFile key s) false ((e.flush env).versionSet.candidateFiles key)) :=
    mem_offers.mpr ⟨indexed, mem_answers.mpr ⟨hprobe, .inl ⟨hcandidate, levelOf_flush_new h hne⟩⟩⟩
  rw [searchFiles, search_newest]
  cases hmax : (offers (answers (e.flush env).levelOf ((e.flush env).probeFile key s) false
      ((e.flush env).versionSet.candidateFiles key))).argmax fun x ↦ x.2.beginTs with
  | none =>
    rw [List.argmax_eq_none.mp hmax] at hoffer
    cases hoffer
  | some best =>
    obtain ⟨i, u⟩ := best
    have hle : v.beginTs ≤ u.beginTs :=
      List.le_of_mem_argmax (f := fun x : ℕ × VersionedValue ↦ x.2.beginTs) hoffer hmax
    obtain ⟨_, hbest⟩ := mem_offers.mp (List.argmax_mem hmax)
    obtain ⟨hfound, hfile⟩ := mem_answers.mp hbest
    have hcand : i ∈ (e.flush env).versionSet.candidateFiles key := by
      rcases hfile with ⟨hmem, -⟩ | ⟨-, hfind⟩
      · exact hmem
      · exact List.mem_of_find?_eq_some hfind
    rcases (isLive_flush hne).mp (isLive_of_candidate (h.flush env) hcand) with hi | rfl
    · have hsame : SameFile e (e.flush env) i := sameFile_flush h hne hi
      dsimp only at hfound
      rw [hsame.probeFile key s] at hfound
      have hstamp := stamp_of_offer h hseq hservable hwritten hi
        (by rw [hfound]; rfl : (e.probeFile key s i).visible = some u)
      exact absurd hle (not_le.mpr (hnewer key v.stamp (stamp_mem_stamps hmem) u.stamp hstamp))
    · obtain ⟨heq, -⟩ := Probe.found.inj (hprobe.symm.trans hfound)
      exact congrArg some (Option.some.inj heq).symm

theorem hotKeyHit_flush : (e.flush env).hotKeyHit key s = e.hotKeyHit key s := by
  have hcache : (e.flush env).hotKeyCache = e.hotKeyCache := by
    simp [Engine.flush, flushSstLocked, hne]
  rw [hotKeyHit, hotKeyHit, hcache]
  cases hroute : e.hotKeyCache[key]? with
  | none => rfl
  | some f =>
    by_cases hf : f = e.versionSet.nextFileId
    · -- the id of the new file: its index knows only keys that are not routed
      have hretired : e.keyIndexFor f = none := by
        rw [keyIndexFor, h.retired f (not_live_of_le h hf.ge)]
        rfl
      have hindex : ∀ index, (e.flush env).keyIndexFor f = some index →
          index.get key = none := fun index hindex ↦ by
        rw [hf, keyIndexFor_flush_new hne] at hindex
        split at hindex
        next =>
          cases hindex
          cases hfound : (KeyIndex.fromRows e.memtable.drainInto).get key with
          | none => rfl
          | some v =>
            obtain ⟨u, hu, -⟩ := KeyIndex.get_fromRows_some
              (h.indexable_drainInto hseq hservable.sized.1) hfound
            have hnone := hservable.unrouted ⟨key, u⟩ (mem_versionsOf.mp hu)
            exact absurd (hroute.symm.trans hnone) (Option.some_ne_none f)
        next => cases hindex
      simp only [Option.bind_some, hretired, Option.bind_none, Option.filter_none]
      cases hkey : (e.flush env).keyIndexFor f with
      | none => rfl
      | some index => simp [hindex index hkey]
    · simp only [Option.bind_some, keyIndexFor, ssts_flush hne, if_neg (Ne.symm hf)]

/-- A servable flush changes no point read. -/
theorem get_flush (hnewer : e.NewerThanFiles) (hwritten : e.FilesWritten) (key : Bytes) (s : ℕ) :
    ((e.flush env).get key s).1 = (e.get key s).1 := by
  have hempty : (e.flush env).memtable.get key s = none := by
    rw [MemTable.get_eq_chain_get, chain_flush hne]
    rfl
  rw [get_fst, get_fst, isDroppedPrefix_flush, hempty, Option.none_or]
  split
  · rfl
  cases hget : e.memtable.get key s with
  | none =>
    rw [hotKeyHit_flush h hseq hservable hne,
      searchFiles_flush_none h hseq hservable hne hget, Option.none_or]
  | some v =>
    have hmem : v ∈ (e.memtable.chain key).versions := by
      rw [MemTable.get_eq_chain_get] at hget
      exact List.mem_of_find?_eq_some hget
    have hcache : (e.flush env).hotKeyCache = e.hotKeyCache := by
      simp [Engine.flush, flushSstLocked, hne]
    have hhit : (e.flush env).hotKeyHit key s = none := by
      rw [hotKeyHit, hcache, hservable.unrouted ⟨key, v⟩ (mem_drainInto.mpr hmem)]
      rfl
    rw [hhit, searchFiles_flush_some h hseq hservable hne hnewer hwritten hget]
    rfl

end Gets

end Flush

end Engine

end HatP
