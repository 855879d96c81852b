import HatP.CompactionReads
import HatP.Search

/-!
# The leveled early exit

Once a file of level one or more has answered, the read loop skips every other
leveled file.  With exact per-file lookups this loses a version exactly when a
skipped file holds one that is newer than all the loop has looked at.
-/

namespace HatP

open Transition

/-- The recorded bounds are the first and the last key of the sorted rows. -/
structure FileMeta.Describes (info : FileMeta) (rows : List VersionedRow) : Prop where
  sorted : rows.Pairwise fun a b ↦ a.key ≤ b.key
  minKey_eq : info.minKey = (rows.head?.map VersionedRow.key).getD []
  maxKey_eq : info.maxKey = (rows.getLast?.map VersionedRow.key).getD []

namespace FileMeta.Describes

variable {info : FileMeta} {rows : List VersionedRow} {row : VersionedRow}

theorem minKey_le (h : info.Describes rows) (hrow : row ∈ rows) : info.minKey ≤ row.key := by
  rw [h.minKey_eq]
  cases rows with
  | nil => cases hrow
  | cons first rows =>
    rcases List.mem_cons.mp hrow with rfl | hrow
    · exact le_rfl
    · exact (List.pairwise_cons.mp h.sorted).1 _ hrow

theorem le_maxKey (h : info.Describes rows) (hrow : row ∈ rows) : row.key ≤ info.maxKey := by
  rw [h.maxKey_eq]
  cases rows using List.reverseRecOn with
  | nil => cases hrow
  | append_singleton rows last =>
    rw [List.getLast?_append, List.getLast?_singleton, Option.some_or, Option.map_some,
      Option.getD_some]
    rcases List.mem_append.mp hrow with hrow | hrow
    · exact (List.pairwise_append.mp h.sorted).2.2 _ hrow last (List.mem_singleton_self last)
    · obtain rfl := List.mem_singleton.mp hrow
      exact le_rfl

end FileMeta.Describes

theorem describes_handleMeta {rows : List VersionedRow} (h : SortedRows rows) (env : SstEnv) :
    (handleMeta rows env).Describes rows :=
  ⟨h.imp RowBefore.key_le, rfl, rfl⟩

namespace Engine

variable {v : VersionedValue}

/-- An exact per-file lookup: it knows whether the file holds the key and finds
the version the snapshot sees. -/
def exactProbe (e : Engine) (key : Bytes) (snapshot fileId : ℕ) : Probe :=
  if versionsOf (e.rowsOf fileId) key = [] then .absent
  else .found (sstGet (e.rowsOf fileId) key snapshot) true

def exactSearch (e : Engine) (key : Bytes) (snapshot : ℕ) : Option VersionedValue :=
  ((e.versionSet.candidateFiles key).foldl
    (searchStep key e.levelOf (e.exactProbe key snapshot)) ⟨none, false, e.hotKeyCache⟩).newest

def firstLeveled (e : Engine) (key : Bytes) : Option ℕ :=
  (e.versionSet.candidateFiles key).find? fun i ↦
    decide (0 < e.levelOf i) && !(versionsOf (e.rowsOf i) key).isEmpty

/-- The files the loop looks into: level zero and the first leveled candidate. -/
def Consulted (e : Engine) (key : Bytes) (i : ℕ) : Prop :=
  e.IsLive i ∧ (e.levelOf i = 0 ∨ e.firstLeveled key = some i)

/-- No leveled file behind the first one that holds the key has a visible
version newer than every visible version at level zero and in that first one. -/
def SkippedOlder (e : Engine) (key : Bytes) (s : ℕ) : Prop :=
  ∀ i, e.IsLive i → 0 < e.levelOf i → e.firstLeveled key ≠ some i →
    ∀ v ∈ versionsOf (e.rowsOf i) key, v.visibleAt s = true →
      ∃ j, e.Consulted key j ∧ ∃ u ∈ versionsOf (e.rowsOf j) key,
        u.visibleAt s = true ∧ v.beginTs ≤ u.beginTs

theorem exists_newestVisible {e : Engine} {key : Bytes} {s : ℕ}
    (hv : v ∈ e.liveVersions key) (hsees : v.visibleAt s = true) :
    ∃ p, NewestVisible (e.liveVersions key) s p := by
  rw [liveVersions_eq] at hv ⊢
  have hmem : v ∈ (e.liveFiles.flatMap fun i ↦ versionsOf (e.rowsOf i) key).filter
      (·.visibleAt s) := List.mem_filter.mpr ⟨hv, hsees⟩
  cases hmax : ((e.liveFiles.flatMap fun i ↦ versionsOf (e.rowsOf i) key).filter
      (·.visibleAt s)).argmax VersionedValue.beginTs with
  | none =>
    rw [List.argmax_eq_none] at hmax
    rw [hmax] at hmem
    cases hmem
  | some w =>
    obtain ⟨hw, hws⟩ := List.mem_filter.mp (List.argmax_mem hmax)
    exact ⟨w.stamp, w, hw, by simpa using hws, rfl, fun u hu hus ↦
      List.le_of_mem_argmax (List.mem_filter.mpr ⟨hu, hus⟩) hmax⟩

theorem consulted_or_skipped {e : Engine} {key : Bytes} {i : ℕ} (hi : e.IsLive i) :
    e.Consulted key i ∨ 0 < e.levelOf i ∧ e.firstLeveled key ≠ some i := by
  by_cases hzero : e.levelOf i = 0
  · exact Or.inl ⟨hi, Or.inl hzero⟩
  · by_cases hfirst : e.firstLeveled key = some i
    · exact Or.inl ⟨hi, Or.inr hfirst⟩
    · exact Or.inr ⟨Nat.pos_of_ne_zero hzero, hfirst⟩

section Search

variable {e : Engine} (h : e.Inv) {key : Bytes} {s i : ℕ}

include h

theorem isLive_of_candidate (hi : i ∈ e.versionSet.candidateFiles key) : e.IsLive i := by
  obtain ⟨info, hinfo, -⟩ := VersionSet.mem_candidateFiles.mp hi
  exact (h.versionSet.meta_iff i).mp
    (Std.ExtTreeMap.mem_iff_isSome_getElem?.mpr (by rw [hinfo]; rfl))

theorem candidate_of_holds (hi : e.IsLive i) (hkey : versionsOf (e.rowsOf i) key ≠ []) :
    i ∈ e.versionSet.candidateFiles key := by
  obtain ⟨l, hl⟩ := hi
  obtain ⟨info, hinfo⟩ := h.versionSet.exists_meta hl
  obtain ⟨env, rfl⟩ := h.metadata i info hinfo
  obtain ⟨v, hv⟩ := List.exists_mem_of_ne_nil _ hkey
  have hrow := mem_versionsOf.mp hv
  have hdescribes := describes_handleMeta (h.sorted i ⟨l, hl⟩) env
  exact VersionSet.mem_candidateFiles.mpr
    ⟨_, hinfo, hdescribes.minKey_le hrow, Or.inr (hdescribes.le_maxKey hrow)⟩

theorem sstGet_eq_some_iff (hi : e.IsLive i) :
    sstGet (e.rowsOf i) key s = some v ↔
      ∃ u ∈ versionsOf (e.rowsOf i) key, u.visibleAt s = true ∧ u.stored = v := by
  rw [sstGet_eq_find?, Option.map_eq_some_iff]
  constructor
  · rintro ⟨u, hu, rfl⟩
    exact ⟨u, List.mem_of_find?_eq_some hu, by simpa using List.find?_some hu, rfl⟩
  · rintro ⟨u, hu, hsees, rfl⟩
    obtain ⟨x, hx⟩ := Option.isSome_iff_exists.mp
      (List.find?_isSome.mpr ⟨u, hu, hsees⟩ :
        ((versionsOf (e.rowsOf i) key).find? (·.visibleAt s)).isSome)
    have hxs : x.visibleAt s = true := by simpa using List.find?_some hx
    rw [eq_of_visibleAt ((h.sorted i hi).descending key) (h.tiled i hi key) hu
      (List.mem_of_find?_eq_some hx) hsees hxs]
    exact ⟨x, hx, rfl⟩

theorem mem_offers_exact :
    (i, v) ∈ offers (answers e.levelOf (e.exactProbe key s) false
        (e.versionSet.candidateFiles key)) ↔
      e.Consulted key i ∧
        ∃ u ∈ versionsOf (e.rowsOf i) key, u.visibleAt s = true ∧ u.stored = v := by
  have hfirst : (e.versionSet.candidateFiles key).find? (fun i ↦
      decide (0 < e.levelOf i) && (e.exactProbe key s i).isFound) = e.firstLeveled key := by
    have hfound : ∀ i, (e.exactProbe key s i).isFound = !(versionsOf (e.rowsOf i) key).isEmpty := by
      intro i
      unfold exactProbe
      split_ifs with hnil
      · simp [Probe.isFound, hnil]
      · simp [Probe.isFound, hnil]
    simp only [firstLeveled, hfound]
  rw [mem_offers]
  simp only [mem_answers, hfirst, true_and]
  constructor
  · rintro ⟨b, hprobe, hi⟩
    have hlive : e.IsLive i := by
      rcases hi with hi | hi
      · exact isLive_of_candidate h hi.1
      · exact isLive_of_candidate h (List.mem_of_find?_eq_some hi)
    refine ⟨⟨hlive, hi.imp_left And.right⟩, (sstGet_eq_some_iff h hlive).mp ?_⟩
    unfold exactProbe at hprobe
    split_ifs at hprobe
    exact (Probe.found.inj hprobe).1
  · rintro ⟨⟨hlive, hi⟩, u, hu, hsees, rfl⟩
    have hkey : versionsOf (e.rowsOf i) key ≠ [] := List.ne_nil_of_mem hu
    have hget : sstGet (e.rowsOf i) key s = some u.stored :=
      (sstGet_eq_some_iff h hlive).mpr ⟨u, hu, hsees, rfl⟩
    refine ⟨true, by rw [exactProbe, if_neg hkey, hget], ?_⟩
    exact hi.imp_left fun hzero ↦ ⟨candidate_of_holds h hlive hkey, hzero⟩

theorem exactSearch_eq_some {x : VersionedValue} (hx : e.exactSearch key s = some x) :
    ∃ i u, e.Consulted key i ∧ u ∈ versionsOf (e.rowsOf i) key ∧ u.visibleAt s = true ∧
      u.stored = x ∧ ∀ j v, e.Consulted key j → v ∈ versionsOf (e.rowsOf j) key →
        v.visibleAt s = true → v.beginTs ≤ u.beginTs := by
  rw [exactSearch, search_newest, Option.map_eq_some_iff] at hx
  obtain ⟨⟨i, v⟩, hmax, rfl⟩ := hx
  obtain ⟨hi, u, hu, hsees, rfl⟩ := (mem_offers_exact h).mp (List.argmax_mem hmax)
  refine ⟨i, u, hi, hu, hsees, rfl, fun j w hj hw hws ↦ ?_⟩
  have hle := List.le_of_mem_argmax ((mem_offers_exact h).mpr ⟨hj, w, hw, hws, rfl⟩) hmax
  exact hle

theorem exactSearch_eq_none (hx : e.exactSearch key s = none)
    (hi : e.Consulted key i) (hv : v ∈ versionsOf (e.rowsOf i) key) : ¬v.visibleAt s = true := by
  intro hsees
  rw [exactSearch, search_newest, Option.map_eq_none_iff, List.argmax_eq_none] at hx
  have hmem := (mem_offers_exact h).mpr ⟨hi, v, hv, hsees, rfl⟩
  rw [hx] at hmem
  exact List.not_mem_nil hmem

end Search

/-- In every reachable engine and with exact lookups, the loop with the early
exit finds the newest visible version over all live files exactly when no
skipped file holds a newer one. -/
theorem exactSearch_newest_iff {ops : List Op} {e : Engine}
    (hrun : run step initial ops = some e) (key : Bytes) (s : ℕ) :
    (∀ p, (e.exactSearch key s).map VersionedValue.stamp = some p ↔
      NewestVisible (e.liveVersions key) s p) ↔ e.SkippedOlder key s := by
  have h := inv_of_run hrun
  constructor
  · intro hsound i hi hlevel hfirst v hv hsees
    have hlive : v ∈ e.liveVersions key := ⟨i, hi, hv⟩
    obtain ⟨p, hp⟩ := exists_newestVisible hlive hsees
    obtain ⟨x, hx, rfl⟩ := Option.map_eq_some_iff.mp ((hsound p).mpr hp)
    obtain ⟨j, u, hj, hu, hus, rfl, -⟩ := exactSearch_eq_some h hx
    obtain ⟨w, -, -, hstamp, hmax⟩ := hp
    have hwu : w.beginTs = u.beginTs := congrArg Prod.fst hstamp
    exact ⟨j, hj, u, hu, hus, hwu ▸ hmax v hlive hsees⟩
  · intro hskipped p
    have hdominated : ∀ v ∈ e.liveVersions key, v.visibleAt s = true →
        ∃ j, e.Consulted key j ∧ ∃ u ∈ versionsOf (e.rowsOf j) key,
          u.visibleAt s = true ∧ v.beginTs ≤ u.beginTs := by
      rintro v ⟨i, hi, hv⟩ hsees
      rcases consulted_or_skipped hi with hcons | ⟨hlevel, hfirst⟩
      · exact ⟨i, hcons, v, hv, hsees, le_rfl⟩
      · exact hskipped i hi hlevel hfirst v hv hsees
    constructor
    · intro hfound
      obtain ⟨x, hx, rfl⟩ := Option.map_eq_some_iff.mp hfound
      obtain ⟨i, u, hi, hu, hus, rfl, hmax⟩ := exactSearch_eq_some h hx
      refine ⟨u, ⟨i, hi.1, hu⟩, hus, rfl, fun v hv hvs ↦ ?_⟩
      obtain ⟨j, hj, w, hw, hws, hvw⟩ := hdominated v hv hvs
      exact hvw.trans (hmax j w hj hw hws)
    · rintro ⟨w, hw, hws, rfl, hmax⟩
      obtain ⟨j, hj, y, hy, hys, hwy⟩ := hdominated w hw hws
      cases hx : e.exactSearch key s with
      | none => exact absurd hys (exactSearch_eq_none h hx hj hy)
      | some x =>
        obtain ⟨i, u, hi, hu, hus, rfl, humax⟩ := exactSearch_eq_some h hx
        have hu' : u ∈ e.liveVersions key := ⟨i, hi.1, hu⟩
        have hbegin : u.beginTs = w.beginTs :=
          le_antisymm (hmax u hu' hus) (hwy.trans (humax j y hj hy hys))
        exact congrArg some (Prod.ext hbegin (h.copies key u hu' w hw hbegin))

/-- An old version of a key, with a smaller key beside it, goes to level two and a
newer one to level one. -/
def newestFirst : List Op :=
  [.write 1 [.put [97] [1], .put [107] [1]], .flush plainEnv, .write 2 [.put [109] [1]],
    .flush plainEnv, .compact 0 2 plainEnv,
    .write 3 [.put [107] [2]], .flush plainEnv, .write 4 [.put [122] [1]], .flush plainEnv,
    .compact 0 1 plainEnv]

/-- The file of level two is skipped, and what it holds is older. -/
theorem exactSearch_newest_iff_newestFirst :
    ∃ e, run step initial newestFirst = some e ∧
      (∃ i ∈ e.liveFiles, ¬e.Consulted [107] i ∧ versionsOf (e.rowsOf i) [107] ≠ []) ∧
      NewestVisible (e.liveVersions [107]) 4 (3, some [2]) := by
  let e := newestFirst.foldl exec initial
  have hrun : run step initial newestFirst = some e := rfl
  have hfirst : e.firstLeveled [107] = some 5 := by decide
  have hskipped : e.SkippedOlder [107] 4 := by
    intro i hi _ _ v hv _
    have hnewest : ∃ u ∈ versionsOf (e.rowsOf 5) [107], u.visibleAt 4 = true ∧ 3 ≤ u.beginTs := by
      decide
    have hbegun : ∀ j ∈ e.liveFiles, ∀ u ∈ versionsOf (e.rowsOf j) [107], u.beginTs ≤ 3 := by
      decide
    obtain ⟨u, hu, hsees, hle⟩ := hnewest
    exact ⟨5, ⟨mem_liveFiles.mp (by decide), .inr hfirst⟩, u, hu, hsees,
      (hbegun i (mem_liveFiles.mpr hi) v hv).trans hle⟩
  refine ⟨e, hrun, ⟨2, by decide, fun hconsulted ↦ ?_, by decide⟩,
    ((exactSearch_newest_iff hrun [107] 4).mpr hskipped (3, some [2])).mp (by decide)⟩
  rcases hconsulted.2 with hzero | hsame
  · exact absurd hzero (by decide)
  · exact absurd (hfirst.symm.trans hsame) (by decide)

/-- An old version of a key goes to level two, a newer one with a smaller key
beside it to level one. -/
def staleLevels : List Op :=
  [.write 1 [.put [107] [1]], .flush plainEnv, .write 2 [.put [109] [1]], .flush plainEnv,
    .compact 0 2 plainEnv,
    .write 3 [.put [97] [1], .put [107] [2]], .flush plainEnv, .write 4 [.put [122] [1]],
    .flush plainEnv, .compact 0 1 plainEnv]

/-- The file of level two has the larger smallest key, comes first and hides
the newer version in level one. -/
theorem earlyExit_misses_newest :
    ∃ e, run step initial staleLevels = some e ∧ e.watermark ≤ 4 ∧
      e.exactSearch [107] 4 = some ⟨some [1], 1, openEndedTs, 0⟩ ∧
      NewestVisible (e.liveVersions [107]) 4 (3, some [2]) ∧ (e.get [107] 4).1 = some [1] := by
  refine ⟨staleLevels.foldl exec initial, rfl, by decide, by decide, ?_, by decide⟩
  rw [liveVersions_eq]
  decide

end Engine

end HatP
