import HatP.CompactionReads
import HatP.Search

/-!
# The hot-key cache

A read that misses the memtable first asks the key index of the file that last
answered for the key and returns what it offers, without looking at any other
file.  This agrees with the full search as long as the routed file stays the
first newest one among the files whose index knows the key.
-/

namespace HatP

open Transition
open Std (ExtTreeMap)

namespace Engine

def mayAnswer (file : SstFile) (key : Bytes) : Bool :=
  match file.keyIndex with
  | some index => (index.get key).isSome
  | none => !(versionsOf file.rows key).isEmpty

def fileMayAnswer (e : Engine) (key : Bytes) (i : ℕ) : Bool :=
  e.ssts[i]?.any fun file ↦ mayAnswer file key

def indexProbe (e : Engine) (key : Bytes) (i : ℕ) : Probe :=
  if !e.rangeMayContain key i then .absent
  else if (e.bloomFor i).any fun filter ↦ !filter.contains key then .absent
  else match (e.keyIndexFor i).bind fun index ↦ index.get key with
    | some version => .found (some version) true
    | none => .absent

def indexOffers (e : Engine) (key : Bytes) : List (ℕ × VersionedValue) :=
  offers (answers e.levelOf (e.indexProbe key) false (e.versionSet.candidateFiles key))

def route (e : Engine) (key : Bytes) : Option (ℕ × VersionedValue) :=
  (e.hotKeyCache[key]?).bind fun i ↦
    ((e.keyIndexFor i).bind fun index ↦ index.get key).map fun version ↦ (i, version)

def AllIndexed (e : Engine) (key : Bytes) : Prop :=
  ∀ i, e.fileMayAnswer key i = true → (e.keyIndexFor i).isSome = true

def reachesFiles (e : Engine) (key : Bytes) (s : ℕ) : Bool :=
  !e.isDroppedPrefix key && (e.memtable.get key s).isNone && (e.hotKeyHit key s).isNone

/-- A merge that retires a file answering for a routed key, or adds one, retires
the routed file with it. -/
def MergeKeepsRoutes (e : Engine) (src tgt w : ℕ) (chunks : List (List ℕ)) (env : ℕ → SstEnv) :
    Prop :=
  2 ≤ (e.compactionInputs src tgt).length → ∀ key x, e.route key = some x →
    x.1 ∈ e.compactionInputs src tgt ∨
      (∀ i ∈ e.compactionInputs src tgt, e.fileMayAnswer key i = false) ∧
        ∀ (index : ℕ) (chunk : List ℕ), chunks[index]? = some chunk →
          mayAnswer (.write (e.compactChunk chunk w) (env index)) key = false

def KeepsRoutes (e : Engine) : Op → Prop
  | .write _ _ => True
  | .flush env => e.memtable.drainInto ≠ [] → ∀ key x, e.route key = some x →
      mayAnswer (.write e.memtable.drainInto env) key = false
  | .compact src tgt env =>
    e.MergeKeepsRoutes src tgt e.watermark [e.compactionInputs src tgt] fun _ ↦ env
  | .subCompact src tgt w env =>
    e.MergeKeepsRoutes src tgt w
      (splitBySize (e.compactionInputs src tgt) e.versionSet maxChunkBytes) env
  | .get key s => e.reachesFiles key s = true → e.AllIndexed key ∧
      ∀ x ∈ (e.indexOffers key).argmax (fun x ↦ x.2.beginTs), x.2.visibleAt s = true

/-- Reads at or above the watermark do not depend on the cache. -/
def CacheTransparent (e : Engine) : Prop :=
  ∀ key s, e.watermark ≤ s → (e.get key s).1 = (({ e with hotKeyCache := ∅ } : Engine).get key s).1

/-! ## Probes and snapshots -/

def Probe.seenAt (s : ℕ) : Probe → Probe
  | .absent => .absent
  | .found visible indexed => .found (visible.filter fun v ↦ v.visibleAt s) indexed

@[simp] theorem seenAt_absent (s : ℕ) : Probe.seenAt s .absent = .absent := rfl

@[simp] theorem seenAt_found (s : ℕ) (visible : Option VersionedValue) (indexed : Bool) :
    Probe.seenAt s (.found visible indexed) =
      .found (visible.filter fun v ↦ v.visibleAt s) indexed := rfl

section Probes

variable {e : Engine} {key : Bytes} {s i : ℕ}

theorem keyIndexFor_of_not_mayAnswer (h : e.fileMayAnswer key i = false) :
    ((e.keyIndexFor i).bind fun index ↦ index.get key) = none := by
  unfold fileMayAnswer at h
  unfold keyIndexFor
  cases hfile : e.ssts[i]? with
  | none => rfl
  | some file =>
    cases hindex : file.keyIndex with
    | none => simp [hindex]
    | some index => simpa [hfile, mayAnswer, hindex] using h

theorem indexProbe_of_not_mayAnswer (h : e.fileMayAnswer key i = false) :
    e.indexProbe key i = .absent := by
  unfold indexProbe
  rw [keyIndexFor_of_not_mayAnswer h]
  split_ifs <;> rfl

theorem indexProbe_found {visible : Option VersionedValue} {indexed : Bool}
    (h : e.indexProbe key i = .found visible indexed) :
    indexed = true ∧ ((e.keyIndexFor i).bind fun index ↦ index.get key) = visible := by
  unfold indexProbe at h
  split_ifs at h
  cases hget : (e.keyIndexFor i).bind fun index ↦ index.get key with
  | none => simp [hget] at h
  | some v =>
    rw [hget] at h
    obtain ⟨hv, hindexed⟩ := Probe.found.inj h
    exact ⟨hindexed.symm, hv⟩

theorem sstGet_of_not_mayAnswer (h : e.fileMayAnswer key i = false)
    (hindex : e.keyIndexFor i = none) : sstGet (e.rowsOf i) key s = none := by
  rw [sstGet_eq_find?]
  suffices hrows : versionsOf (e.rowsOf i) key = [] by
    rw [hrows]
    rfl
  unfold fileMayAnswer at h
  unfold keyIndexFor at hindex
  unfold rowsOf
  cases hfile : e.ssts[i]? with
  | none => rfl
  | some file =>
    have hnone : file.keyIndex = none := by simpa [hfile] using hindex
    simpa [hfile, mayAnswer, hnone] using h

theorem probeFile_eq_seenAt (h : e.AllIndexed key) :
    e.probeFile key s i = (e.indexProbe key i).seenAt s := by
  unfold probeFile indexProbe
  split_ifs
  · rfl
  · rfl
  · cases hindex : e.keyIndexFor i with
    | none =>
      have hnot : e.fileMayAnswer key i = false := by
        by_contra hmay
        have hsome := h i (by simpa using hmay)
        simp [hindex] at hsome
      simp [sstGet_of_not_mayAnswer hnot hindex]
    | some index =>
      cases hget : index.get key with
      | none | some version => simp [hget]

end Probes

section Answers

variable {level level' : ℕ → ℕ} {probe probe' : ℕ → Probe} {found : Bool} {files : List ℕ}

theorem answers_filter {p : ℕ → Bool} (h : ∀ i ∈ files, p i = false → probe i = .absent) :
    answers level probe found (files.filter p) = answers level probe found files := by
  induction files generalizing found with
  | nil => rfl
  | cons i files ih =>
    have hrest : ∀ found, answers level probe found (files.filter p) =
        answers level probe found files :=
      fun found ↦ ih fun j hj ↦ h j (List.mem_cons_of_mem i hj)
    by_cases hp : p i = true
    · rw [List.filter_cons_of_pos hp]
      simp only [answers, hrest]
    · have habsent := h i (.head _) (by simpa using hp)
      rw [List.filter_cons_of_neg hp, hrest]
      simp [answers, habsent]

theorem answers_congr (h : ∀ i ∈ files, level' i = level i ∧ probe' i = probe i) :
    answers level' probe' found files = answers level probe found files := by
  induction files generalizing found with
  | nil => rfl
  | cons i files ih =>
    obtain ⟨hlevel, hprobe⟩ := h i (.head _)
    have hrest : ∀ found, answers level' probe' found files = answers level probe found files :=
      fun found ↦ ih fun j hj ↦ h j (List.mem_cons_of_mem i hj)
    simp only [answers, hlevel, hprobe, hrest]

theorem offers_seenAt (s : ℕ) :
    offers (answers level (fun i ↦ (probe i).seenAt s) found files) =
      (offers (answers level probe found files)).filter fun x ↦ x.2.visibleAt s := by
  induction files generalizing found with
  | nil => rfl
  | cons i files ih =>
    simp only [answers]
    split_ifs with hskip
    · exact ih
    · cases probe i with
      | absent => exact ih
      | found visible indexed =>
        cases visible with
        | none =>
          simp only [seenAt_found, Option.filter_none, offers_cons_none, ih]
        | some v =>
          by_cases hv : v.visibleAt s = true
          · simp [hv, Option.filter_some, offers_cons_some, ih]
          · simp [hv, Option.filter_some, offers_cons_some, offers_cons_none, ih]

end Answers

/-! ## The cache after a search -/

section Cache

variable {key : Bytes} {level : ℕ → ℕ} {probe : ℕ → Probe}

theorem hotKeyCacheInsert_self (cache : ExtTreeMap Bytes ℕ) (i : ℕ) :
    (hotKeyCacheInsert cache key i)[key]? = some i := by
  simp [hotKeyCacheInsert]

theorem hotKeyCacheInsert_other {cache : ExtTreeMap Bytes ℕ} {i f : ℕ} {key' : Bytes}
    (hne : key' ≠ key) (h : (hotKeyCacheInsert cache key i)[key']? = some f) :
    cache[key']? = some f := by
  unfold hotKeyCacheInsert at h
  rw [ExtTreeMap.getElem?_insert, if_neg (by simpa using Ne.symm hne)] at h
  split_ifs at h
  · simp at h
  · exact h

/-- When key indexes give all answers, the loop routes `key` to the file of the
first newest offer and adds no other route. -/
theorem search_cache (key : Bytes) (level : ℕ → ℕ) (cache : ExtTreeMap Bytes ℕ)
    {files : List ℕ} (hindexed : ∀ i ∈ files, ∀ visible indexed, probe i = .found visible indexed →
      indexed = true) :
    (files.foldl (searchStep key level probe) ⟨none, false, cache⟩).hotKeyCache[key]? =
        (((offers (answers level probe false files)).argmax fun x ↦ x.2.beginTs).map
          Prod.fst).or cache[key]? ∧
      ∀ key' ≠ key, ∀ f,
        (files.foldl (searchStep key level probe) ⟨none, false, cache⟩).hotKeyCache[key']? =
          some f → cache[key']? = some f := by
  refine (foldl_searchStep (R := fun st best ↦ st.newest = best.map Prod.snd ∧
      st.hotKeyCache[key]? = (best.map Prod.fst).or cache[key]? ∧
      ∀ key' ≠ key, ∀ f, st.hotKeyCache[key']? = some f → cache[key']? = some f)
    files ?_ ⟨none, false, cache⟩ none ⟨rfl, rfl, fun _ _ _ h ↦ h⟩).2
  intro i hi visible indexed st best hprobe hskip hst
  obtain ⟨hbest, hroute, hother⟩ := hst
  obtain rfl := hindexed i hi visible indexed hprobe
  rw [searchStep_found hskip hprobe]
  refine ⟨map_snd_better hbest i visible, ?_, ?_⟩
  · cases visible with
    | none => simpa [better] using hroute
    | some v =>
      cases best with
      | none => simp [hbest, isNewer, better, List.argAux, hotKeyCacheInsert_self]
      | some b =>
        by_cases hlt : b.2.beginTs < v.beginTs
        · simp [hbest, isNewer, better, List.argAux, Newer, hlt, hotKeyCacheInsert_self]
        · simpa [hbest, isNewer, better, List.argAux, Newer, hlt] using hroute
  · intro key' hne f hf
    dsimp only at hf
    split_ifs at hf
    · exact hother key' hne f (hotKeyCacheInsert_other hne hf)
    · exact hother key' hne f hf

end Cache

/-! ## The invariant of the routes -/

/-- Routes lead to ids in use, and a route that finds a version finds the first
newest one the indexes offer. -/
structure CacheInv (e : Engine) : Prop where
  inv : e.Inv
  used : ∀ (key : Bytes) (f : ℕ), e.hotKeyCache[key]? = some f → f < e.versionSet.nextFileId
  newest : ∀ key x, e.route key = some x → e.AllIndexed key ∧
    (e.indexOffers key).argmax (fun x ↦ x.2.beginTs) = some x

variable {x : ℕ × VersionedValue}

theorem hotKeyHit_eq (e : Engine) (key : Bytes) (s : ℕ) :
    e.hotKeyHit key s = ((e.route key).map Prod.snd).filter fun v ↦ v.visibleAt s := by
  unfold hotKeyHit route
  cases e.hotKeyCache[key]? with
  | none => rfl
  | some i =>
    cases hindex : e.keyIndexFor i with
    | none => simp [hindex]
    | some index =>
      cases hget : index.get key with
      | none | some v => simp [hindex, hget]

variable {key : Bytes} {e e' : Engine} {env : SstEnv} {i s : ℕ}

theorem searchFiles_newest (h : e.AllIndexed key) (s : ℕ) :
    (e.searchFiles key s).newest =
      (((e.indexOffers key).filter fun x ↦ x.2.visibleAt s).argmax fun x ↦ x.2.beginTs).map
        Prod.snd := by
  have hprobe : e.probeFile key s = fun i ↦ (e.indexProbe key i).seenAt s :=
    funext fun _ ↦ probeFile_eq_seenAt h
  rw [searchFiles, search_newest, hprobe, offers_seenAt]
  rfl

theorem searchFiles_newest_setCache (e : Engine) (key : Bytes) (s : ℕ)
    (cache : ExtTreeMap Bytes ℕ) :
    (({ e with hotKeyCache := cache } : Engine).searchFiles key s).newest =
      (e.searchFiles key s).newest := by
  rw [searchFiles, search_newest, searchFiles, search_newest]
  rfl

theorem CacheInv.transparent (h : e.CacheInv) : e.CacheTransparent := by
  intro key s _
  have hempty : ({ e with hotKeyCache := ∅ } : Engine).hotKeyHit key s = none := by
    simp [hotKeyHit]
  rw [get_fst, get_fst, hempty, e.searchFiles_newest_setCache key s ∅]
  change (if e.isDroppedPrefix key then none else _) = if e.isDroppedPrefix key then none else _
  split_ifs
  · rfl
  change _ = (((e.memtable.get key s).or none).or _).bind _
  rw [Option.or_none, Option.or_assoc]
  congr 2
  cases hhit : e.hotKeyHit key s with
  | none => rfl
  | some version =>
    rw [hotKeyHit_eq, Option.filter_eq_some_iff, Option.map_eq_some_iff] at hhit
    obtain ⟨⟨x, hroute, rfl⟩, hsees⟩ := hhit
    obtain ⟨hindexed, hmax⟩ := h.newest key x hroute
    rw [searchFiles_newest hindexed, Newest.argmax_filter hmax hsees]
    rfl

/-! ## Files that stay as they are -/

structure SameFile (e e' : Engine) (i : ℕ) : Prop where
  sst : e'.ssts[i]? = e.ssts[i]?
  info : e'.versionSet.fileMeta[i]? = e.versionSet.fileMeta[i]?
  level : e'.levelOf i = e.levelOf i

theorem SameFile.indexProbe (h : SameFile e e' i) (key : Bytes) :
    e'.indexProbe key i = e.indexProbe key i := by
  unfold Engine.indexProbe rangeMayContain bloomFor keyIndexFor
  rw [h.sst, h.info]

theorem SameFile.probeFile (h : SameFile e e' i) (key : Bytes) (s : ℕ) :
    e'.probeFile key s i = e.probeFile key s i := by
  unfold Engine.probeFile rangeMayContain bloomFor keyIndexFor rowsOf
  rw [h.sst, h.info]

/-- The files that answer for `key` stay as they are and none is added. -/
structure SameAnswers (e e' : Engine) (key : Bytes) : Prop where
  answer : ∀ i, e'.fileMayAnswer key i = e.fileMayAnswer key i
  same : ∀ i, e.fileMayAnswer key i = true → SameFile e e' i

theorem SameAnswers.indexOffers (h : SameAnswers e e' key) :
    e'.indexOffers key = e.indexOffers key := by
  have habsent : ∀ i ∈ e.versionSet.candidateFiles key, e.fileMayAnswer key i = false →
      e.indexProbe key i = .absent := fun i _ ↦ indexProbe_of_not_mayAnswer
  have habsent' : ∀ i ∈ e'.versionSet.candidateFiles key, e.fileMayAnswer key i = false →
      e'.indexProbe key i = .absent :=
    fun i _ hi ↦ indexProbe_of_not_mayAnswer ((h.answer i).trans hi)
  unfold Engine.indexOffers
  rw [← answers_filter habsent, ← answers_filter habsent',
    VersionSet.filter_candidateFiles_congr fun i hi ↦ (h.same i hi).info]
  congr 1
  apply answers_congr
  intro i hi
  have hsame := h.same i (List.mem_filter.mp hi).2
  exact ⟨hsame.level, hsame.indexProbe key⟩

theorem SameAnswers.allIndexed (h : SameAnswers e e' key)
    (hindexed : e.AllIndexed key) : e'.AllIndexed key := by
  intro i hi
  rw [h.answer] at hi
  rw [keyIndexFor, (h.same i hi).sst]
  exact hindexed i hi

/-- A step that leaves the cache alone keeps the invariant if it keeps the
answers of every key that is still routed. -/
theorem CacheInv.of_sameAnswers (h : e.CacheInv) (hinv : e'.Inv)
    (hcache : e'.hotKeyCache = e.hotKeyCache)
    (hnext : e.versionSet.nextFileId ≤ e'.versionSet.nextFileId)
    (hroute : ∀ key x, e'.route key = some x → e.route key = some x ∧ SameAnswers e e' key) :
    e'.CacheInv where
  inv := hinv
  used key f hf := (h.used key f (hcache ▸ hf)).trans_le hnext
  newest key x hx := by
    obtain ⟨hx, hsame⟩ := hroute key x hx
    obtain ⟨hindexed, hmax⟩ := h.newest key x hx
    exact ⟨hsame.allIndexed hindexed, hsame.indexOffers ▸ hmax⟩

theorem fileMayAnswer_of_not_live (h : e.Inv) (hi : ¬e.IsLive i)
    (key : Bytes) : e.fileMayAnswer key i = false := by
  simp [fileMayAnswer, h.retired i hi]

theorem isLive_of_mayAnswer (h : e.Inv) (hi : e.fileMayAnswer key i = true) : e.IsLive i := by
  by_contra hlive
  rw [fileMayAnswer_of_not_live h hlive] at hi
  exact Bool.false_ne_true hi

theorem not_live_of_le (h : e.Inv) (hi : e.versionSet.nextFileId ≤ i) : ¬e.IsLive i := by
  rintro ⟨l, hl⟩
  exact absurd (h.versionSet.fresh hl) (not_lt.mpr hi)

theorem route_eq_some :
    e.route key = some x ↔ e.hotKeyCache[key]? = some x.1 ∧
      ((e.keyIndexFor x.1).bind fun index ↦ index.get key) = some x.2 := by
  obtain ⟨f, v⟩ := x
  unfold route
  cases e.hotKeyCache[key]? with
  | none => simp
  | some i =>
    simp only [Option.bind_some, Option.map_eq_some_iff, Prod.mk.injEq, Option.some.injEq]
    constructor
    · rintro ⟨u, hu, rfl, rfl⟩
      exact ⟨rfl, hu⟩
    · rintro ⟨rfl, hu⟩
      exact ⟨v, hu, rfl, rfl⟩

/-! ## Calls keep the routes -/

theorem sameFile_flush (h : e.Inv) (hne : e.memtable.drainInto ≠ [])
    (hi : e.IsLive i) : SameFile e (e.flush env) i := by
  have hold : i ≠ e.versionSet.nextFileId := by
    rintro rfl
    exact not_live_of_le h le_rfl hi
  obtain ⟨l, hl⟩ := hi
  refine ⟨by rw [ssts_flush hne, if_neg hold.symm], ?_, ?_⟩
  · rw [versionSet_flush hne]
    change (e.versionSet.apply (.addFile _ 0 _)).fileMeta[i]? = _
    rw [VersionSet.getElem?_fileMeta_addFile, if_neg hold.symm]
  · rw [levelOf, levelOf,
      (h.flush env).versionSet.fileLevelFor_eq ((mem_files_flush hne).mpr (Or.inl hl)),
      h.versionSet.fileLevelFor_eq hl]

theorem CacheInv.flush (h : e.CacheInv)
    (hkeep : e.KeepsRoutes (.flush env)) : (e.flush env).CacheInv := by
  by_cases hne : e.memtable.drainInto = []
  · rwa [flush_of_nil hne]
  have hcache : (e.flush env).hotKeyCache = e.hotKeyCache := by
    simp [Engine.flush, flushSstLocked, hne]
  refine h.of_sameAnswers (h.inv.flush env) hcache ?_ ?_
  · rw [versionSet_flush hne]
    exact e.versionSet.nextFileId_le_applied _
  intro key x hx
  obtain ⟨hroute, hget⟩ := route_eq_some.mp hx
  rw [hcache] at hroute
  have hsst : (e.flush env).ssts[x.1]? = e.ssts[x.1]? := by
    rw [ssts_flush hne, if_neg (h.used key x.1 hroute).ne']
  rw [keyIndexFor, hsst] at hget
  have hx : e.route key = some x := route_eq_some.mpr ⟨hroute, hget⟩
  refine ⟨hx, fun i ↦ ?_, fun i hi ↦ sameFile_flush h.inv hne (isLive_of_mayAnswer h.inv hi)⟩
  rw [fileMayAnswer, ssts_flush hne]
  split_ifs with hi
  · rw [fileMayAnswer_of_not_live h.inv (not_live_of_le h.inv hi.le)]
    exact hkeep hne key x hx
  · rfl

theorem CacheInv.compactChunks (h : e.CacheInv) {src tgt w : ℕ}
    {chunks : List (List ℕ)} {env : ℕ → SstEnv} (hsplit : e.Splits src tgt chunks)
    (hlen : 2 ≤ (e.compactionInputs src tgt).length)
    (hkeep : e.MergeKeepsRoutes src tgt w chunks env) :
    (e.merged src tgt w chunks env).CacheInv := by
  have hinv : (e.merged src tgt w chunks env).Inv := h.inv.compactChunks hsplit
  have hwf := h.inv.versionSet
  refine h.of_sameAnswers hinv rfl (e.versionSet.nextFileId_le_applied _) ?_
  intro key x hx
  obtain ⟨hroute, hget⟩ := route_eq_some.mp hx
  have hused := h.used key x.1 hroute
  have hkept : x.1 ∉ e.compactionInputs src tgt := by
    intro hmem
    rw [keyIndexFor, ssts_compactChunks, if_pos hmem] at hget
    simp at hget
  rw [keyIndexFor, ssts_compactChunks_kept hkept hused] at hget
  have hx : e.route key = some x := route_eq_some.mpr ⟨hroute, hget⟩
  obtain ⟨hin, hout⟩ := (hkeep hlen key x hx).resolve_left hkept
  refine ⟨hx, fun i ↦ ?_, fun i hi ↦ ?_⟩
  · rw [fileMayAnswer, ssts_compactChunks]
    split_ifs with hi
    · rw [hin i hi]
      rfl
    · cases hfind : (e.chunkOutputs w chunks env).find? fun o ↦ o.fileId == i with
      | none => rfl
      | some o =>
        obtain ⟨index, chunk, hchunk, rfl⟩ :=
          mem_chunkOutputs.mp (List.mem_of_find?_eq_some hfind)
        have hid : e.versionSet.nextFileId + index = i := by
          simpa using List.find?_some hfind
        rw [fileMayAnswer_of_not_live h.inv (not_live_of_le h.inv (by omega))]
        exact hout index chunk hchunk
  · obtain ⟨l, hl⟩ := isLive_of_mayAnswer h.inv hi
    have hi' : i ∉ e.compactionInputs src tgt := by
      intro hmem
      rw [hin i hmem] at hi
      exact Bool.false_ne_true hi
    refine ⟨ssts_compactChunks_kept hi' (hwf.fresh hl), ?_, ?_⟩
    · rw [fileMeta_compactChunks, if_neg hi', find?_chunkOutputs_of_lt (hwf.fresh hl)]
      rfl
    · have hl' : i ∈ (e.merged src tgt w chunks env).versionSet.files l :=
        (mem_files_compactChunks hwf fun _ h ↦ mem_compactionInputs.mp h).mpr (Or.inl ⟨hl, hi'⟩)
      rw [levelOf, levelOf, hinv.versionSet.fileLevelFor_eq hl', hwf.fileLevelFor_eq hl]

theorem get_snd_of_not_reaches (h : e.reachesFiles key s = false) : (e.get key s).2 = e := by
  unfold reachesFiles at h
  unfold Engine.get
  split_ifs with hdropped
  · rfl
  · cases hmem : e.memtable.get key s with
    | some version => rfl
    | none =>
      cases hhit : e.hotKeyHit key s with
      | some version => rfl
      | none => simp [hdropped, hmem, hhit] at h

theorem get_snd_of_reaches (h : e.reachesFiles key s = true) :
    (e.get key s).2 = { e with hotKeyCache := (e.searchFiles key s).hotKeyCache } := by
  simp only [reachesFiles, Bool.and_eq_true, Bool.not_eq_true', Option.isNone_iff_eq_none] at h
  obtain ⟨⟨hdropped, hmem⟩, hhit⟩ := h
  simp [Engine.get, hdropped, hmem, hhit]

theorem mem_indexOffers (h : x ∈ e.indexOffers key) : e.versionSet.InRange key x.1 ∧
      ((e.keyIndexFor x.1).bind fun index ↦ index.get key) = some x.2 := by
  obtain ⟨i, v⟩ := x
  obtain ⟨b, ha⟩ := mem_offers.mp h
  obtain ⟨hprobe, hfile⟩ := mem_answers.mp ha
  have hmem : i ∈ e.versionSet.candidateFiles key := by
    rcases hfile with h | h
    · exact h.1
    · exact List.mem_of_find?_eq_some h.2
  exact ⟨VersionSet.mem_candidateFiles.mp hmem, (indexProbe_found hprobe).2⟩

theorem searchFiles_cache (hindexed : e.AllIndexed key)
    (hsees : ∀ x ∈ (e.indexOffers key).argmax (fun x ↦ x.2.beginTs), x.2.visibleAt s = true) :
    (e.searchFiles key s).hotKeyCache[key]? =
        (((e.indexOffers key).argmax fun x ↦ x.2.beginTs).map Prod.fst).or e.hotKeyCache[key]? ∧
      ∀ key' ≠ key, ∀ f, (e.searchFiles key s).hotKeyCache[key']? = some f →
        e.hotKeyCache[key']? = some f := by
  have hprobe : e.probeFile key s = fun i ↦ (e.indexProbe key i).seenAt s :=
    funext fun _ ↦ probeFile_eq_seenAt hindexed
  have hbit : ∀ i ∈ e.versionSet.candidateFiles key, ∀ visible indexed,
      e.probeFile key s i = .found visible indexed → indexed = true := by
    intro i _ visible indexed hfound
    rw [probeFile_eq_seenAt hindexed] at hfound
    cases hindex : e.indexProbe key i with
    | absent => simp [hindex] at hfound
    | found offered bit =>
      rw [hindex, seenAt_found] at hfound
      exact (Probe.found.inj hfound).2 ▸ (indexProbe_found hindex).1
  obtain ⟨hroute, hother⟩ := search_cache key e.levelOf e.hotKeyCache hbit
  refine ⟨?_, hother⟩
  rw [searchFiles, hroute, hprobe, offers_seenAt]
  change ((((e.indexOffers key).filter _).argmax _).map _).or _ = _
  cases hmax : (e.indexOffers key).argmax fun x ↦ x.2.beginTs with
  | none =>
    rw [List.argmax_eq_none.mp hmax]
    rfl
  | some x => rw [Newest.argmax_filter hmax (hsees x hmax)]

theorem CacheInv.get (h : e.CacheInv)
    (hkeep : e.KeepsRoutes (.get key s)) : (e.get key s).2.CacheInv := by
  cases hreach : e.reachesFiles key s with
  | false => rwa [get_snd_of_not_reaches hreach]
  | true =>
    obtain ⟨hindexed, hsees⟩ := hkeep hreach
    obtain ⟨hroute, hother⟩ := searchFiles_cache hindexed hsees
    rw [get_snd_of_reaches hreach]
    -- A route after the search is an old one, or leads to the newest version on offer.
    have hnew : ∀ (key' : Bytes) (f : ℕ), (e.searchFiles key s).hotKeyCache[key']? = some f →
        e.hotKeyCache[key']? = some f ∨ key' = key ∧
          ∃ v, (e.indexOffers key).argmax (fun x ↦ x.2.beginTs) = some (f, v) := by
      intro key' f hf
      by_cases hkey : key' = key
      · subst hkey
        cases hmax : (e.indexOffers key').argmax fun x ↦ x.2.beginTs with
        | none =>
          rw [hroute, hmax] at hf
          exact Or.inl hf
        | some x =>
          rw [hroute, hmax] at hf
          obtain rfl : x.1 = f := Option.some.inj hf
          exact Or.inr ⟨rfl, x.2, rfl⟩
      · exact Or.inl (hother key' hkey f hf)
    refine ⟨h.inv.setCache _, fun key' f hf ↦ ?_, fun key' x hx ↦ ?_⟩
    · rcases hnew key' f hf with hold | ⟨-, v, hmax⟩
      · exact h.used key' f hold
      · obtain ⟨⟨info, hinfo, -⟩, -⟩ := mem_indexOffers (List.argmax_mem hmax)
        have hmem : f ∈ e.versionSet.fileMeta :=
          ExtTreeMap.mem_iff_isSome_getElem?.mpr (by simp [hinfo])
        obtain ⟨l, hl⟩ := (h.inv.versionSet.meta_iff f).mp hmem
        exact h.inv.versionSet.fresh hl
    · obtain ⟨hcache, hget⟩ := route_eq_some.mp hx
      rcases hnew key' x.1 hcache with hold | ⟨rfl, v, hmax⟩
      · exact h.newest key' x (route_eq_some.mpr ⟨hold, hget⟩)
      · have hv := (mem_indexOffers (List.argmax_mem hmax)).2
        obtain rfl : v = x.2 := Option.some.inj (hv.symm.trans hget)
        exact ⟨hindexed, hmax⟩

theorem cacheInv_initial : initial.CacheInv where
  inv := inv_initial
  used key f hf := by simp [initial] at hf
  newest key x hx := by simp [route, initial] at hx

theorem CacheInv.exec (h : e.CacheInv) {op : Op} (hkeep : e.KeepsRoutes op) :
    (e.exec op).CacheInv := by
  cases op with
  | write txId ms =>
    rcases e.exec_write txId ms with heq | heq <;> rw [heq]
    · exact h
    · exact ⟨h.inv.committed, h.used, h.newest⟩
  | flush env => exact h.flush hkeep
  | compact src tgt env =>
    rcases e.exec_compact src tgt env with heq | ⟨hlen, heq⟩ <;> rw [heq]
    · exact h
    · exact h.compactChunks (e.splits_singleton src tgt) hlen hkeep
  | subCompact src tgt w env =>
    rcases e.exec_subCompact src tgt w env with heq | ⟨hlen, heq⟩ <;> rw [heq]
    · exact h
    · exact h.compactChunks (e.splits_splitBySize src tgt maxChunkBytes) hlen hkeep
  | get key s => exact h.get hkeep

/-! ## Runs -/

/-- The cache is transparent in every state of a run whose calls keep the
routes up to date. -/
theorem cacheTransparent_along (ops : List Op)
    (hkeep : StepsMeet step KeepsRoutes initial ops) :
    Along step CacheTransparent initial ops := by
  apply StepsMeet.along _ _ cacheInv_initial hkeep
  · intro e op e' hinv hop hstep
    exact Option.some.inj hstep ▸ hinv.exec hop
  · exact fun e hinv ↦ hinv.transparent

theorem keepsRoutes_flush
    (h : ∀ key ∈ e.hotKeyCache.keys, mayAnswer (.write e.memtable.drainInto env) key = false) :
    e.KeepsRoutes (.flush env) := by
  intro _ key x hx
  apply h key
  rw [ExtTreeMap.mem_keys, ExtTreeMap.mem_iff_isSome_getElem?, (route_eq_some.mp hx).1]
  rfl

theorem allIndexed_of_liveFiles (hinv : e.Inv)
    (h : ∀ i ∈ e.liveFiles, (e.keyIndexFor i).isSome = true) (key : Bytes) : e.AllIndexed key :=
  fun i hi ↦ h i (mem_liveFiles.mpr (isLive_of_mayAnswer hinv hi))

def readAroundFlush : List Op :=
  [.write 1 [.put [107] [1]], .flush plainEnv, .get [107] 1, .write 2 [.put [108] [2]],
    .flush plainEnv, .get [107] 2]

theorem cacheTransparent_along_readAroundFlush :
    StepsMeet step KeepsRoutes initial readAroundFlush ∧
      Along step CacheTransparent initial readAroundFlush := by
  have hkeep : StepsMeet step KeepsRoutes initial readAroundFlush := by
    rintro _ ⟨⟩
    refine ⟨trivial, ?_⟩
    rintro _ ⟨⟩
    refine ⟨keepsRoutes_flush (by decide), ?_⟩
    rintro _ ⟨⟩
    refine ⟨fun _ ↦ ⟨?_, by decide⟩, ?_⟩
    · exact allIndexed_of_liveFiles ((inv_initial.exec _).exec _) (by decide) [107]
    rintro _ ⟨⟩
    refine ⟨trivial, ?_⟩
    rintro _ ⟨⟩
    refine ⟨keepsRoutes_flush (by decide), ?_⟩
    rintro _ ⟨⟩
    exact ⟨fun hreach ↦ absurd hreach (by decide), trivial⟩
  exact ⟨hkeep, cacheTransparent_along readAroundFlush hkeep⟩

def readBetweenFlushes : List Op :=
  [.write 1 [.put [107] [1]], .flush plainEnv, .get [107] 1, .write 2 [.put [107] [2]],
    .flush plainEnv]

/-- The route set by the first read hides the second version. -/
theorem stale_route_hides_newer :
    ∃ e, run step initial readBetweenFlushes = some e ∧ e.watermark ≤ 2 ∧
      (e.get [107] 2).1 = some [1] ∧
      (({ e with hotKeyCache := ∅ } : Engine).get [107] 2).1 = some [2] := by
  exact ⟨readBetweenFlushes.foldl exec initial, rfl, by decide, by decide, by decide⟩

end Engine

end HatP
