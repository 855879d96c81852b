import HatP.FlushReads

/-!
# Reads before and after a compaction

A scan at or after the watermark returns the same rows from the inputs of a
compaction and from its outputs.  A point read does when the file loop cannot
go wrong for its key: no route of the hot-key cache, one version per indexed
file, and one leveled file.
-/

namespace HatP

namespace Engine

variable {v : VersionedValue}

/-! ## Scans -/

section Scans

variable {e : Engine} {key lower upper : Bytes} {src tgt w s : ℕ} {chunks : List (List ℕ)}
  {env : ℕ → SstEnv}

theorem shownStamps_of_dropped {e' : Engine} (hmemtable : e'.memtable = e.memtable)
    (hdropped : e.isDroppedPrefix key = true) (hdropped' : e'.isDroppedPrefix key = true) :
    e'.shownStamps key s = e.shownStamps key s := by
  have hfiles : ∀ {e : Engine} {x : VersionedValue}, e.isDroppedPrefix key = true →
      (e.Shows key s x ↔ x.visibleAt s = true ∧ x ∈ (e.memtable.chain key).versions) :=
    fun hdropped ↦ by
      rw [Shows, hdropped]
      simp
  ext p
  refine exists_congr fun x ↦ and_congr_left fun _ ↦ ?_
  rw [hfiles hdropped, hfiles hdropped', hmemtable]

theorem visibleAt_of_endsFrom {vs : List VersionedValue}
    (hdesc : Descending vs) (hends : EndsFrom openEndedTs vs)
    (hbelow : ∀ u ∈ vs, u.beginTs < openEndedTs) (hv : v ∈ vs) (hs : openEndedTs ≤ s) :
    v.visibleAt s = false := by
  rw [Bool.eq_false_iff]
  intro hsees
  have hend := (endTs_le_of_endsFrom hdesc hends hbelow hv).2
  exact absurd ((VersionedValue.visibleAt_eq_true.mp hsees).2.trans_le hend) (not_lt.mpr hs)

theorem Inv.chain_visibleAt (h : e.Inv) (hseq : e.commitSeq ≤ openEndedTs)
    (hs : openEndedTs ≤ s) (hv : v ∈ (e.memtable.chain key).versions) :
    v.visibleAt s = false := by
  refine visibleAt_of_endsFrom (e.memtable.chain key).descending (h.memtable_tiled key)
    (fun u hu ↦ ?_) hv hs
  exact (h.begun key u.stamp (.inl (stamp_mem_stamps hu))).trans_le hseq

theorem Inv.live_visibleAt (h : e.Inv) (hseq : e.commitSeq ≤ openEndedTs)
    (hs : openEndedTs ≤ s) (hv : v ∈ e.liveVersions key) :
    v.visibleAt s = false := by
  obtain ⟨i, hi, hv⟩ := hv
  refine visibleAt_of_endsFrom ((h.sorted i hi).descending key) (h.tiled i hi key)
    (fun u hu ↦ ?_) hv hs
  exact (h.begun key u.stamp (.inr ⟨u, ⟨i, hi, hu⟩, rfl⟩)).trans_le hseq

theorem Inv.shownStamps_of_le (h : e.Inv) (hseq : e.commitSeq ≤ openEndedTs)
    (hs : openEndedTs ≤ s) : e.shownStamps key s = ∅ := by
  rw [Set.eq_empty_iff_forall_notMem]
  rintro p ⟨x, ⟨hsees, hchain | ⟨-, i, hi, v, hv, rfl⟩⟩, -⟩
  · exact absurd (hsees.symm.trans (h.chain_visibleAt hseq hs hchain)) (by simp)
  · have hnot : v.visibleAt s = false := h.live_visibleAt hseq hs ⟨i, hi, hv⟩
    exact absurd (hsees.symm.trans hnot) (by simp)

variable (h : e.Inv) (hseq : e.commitSeq ≤ openEndedTs) (hsplit : e.Splits src tgt chunks)
  (hws : w ≤ s)

include h hseq hsplit hws

theorem Inv.showsValue_compactChunks {value : Option Bytes} :
    (e.merged src tgt w chunks env).ShowsValue key s value ↔ e.ShowsValue key s value := by
  have h' : (e.merged src tgt w chunks env).Inv := h.compactChunks hsplit
  by_cases hs : s < openEndedTs
  · cases hdropped : e.isDroppedPrefix key with
    | true => exact showsValue_congr (shownStamps_of_dropped rfl hdropped hdropped)
    | false =>
      have hprunes := prunes_compactChunks h hsplit w env
      rw [h.showsValue_iff hs hdropped, h'.showsValue_iff hs hdropped]
      refine exists_congr fun ts ↦ ?_
      exact (Newest.isNewestAt_prune_iff hws (hprunes.subset key) (hprunes.keep key)).symm
  · apply showsValue_congr
    rw [h.shownStamps_of_le hseq (not_lt.mp hs), h'.shownStamps_of_le hseq (not_lt.mp hs)]

theorem Inv.newestVisible_compactChunks {p : ℕ × Option Bytes} :
    NewestVisible ((e.merged src tgt w chunks env).liveVersions key) s p ↔
      NewestVisible (e.liveVersions key) s p := by
  have h' : (e.merged src tgt w chunks env).Inv := h.compactChunks hsplit
  by_cases hs : s < openEndedTs
  · rw [newestVisible_iff h.tiledFiles hs, newestVisible_iff h'.tiledFiles hs]
    exact (Newest.isNewestAt_prune_iff hws
      (liveStamps_compactChunks_subset h.versionSet hsplit key)
      fun q hq hkeep ↦ stamp_kept_compactChunks h.versionSet hsplit h.copies hq hkeep).symm
  · have hnone : ∀ {e : Engine}, e.Inv → e.commitSeq ≤ openEndedTs →
        ¬NewestVisible (e.liveVersions key) s p := fun h hseq ⟨v, hv, hsees, _⟩ ↦
      absurd (hsees.symm.trans (h.live_visibleAt hseq (not_lt.mp hs) hv)) (by simp)
    exact iff_of_false (hnone h' hseq) (hnone h hseq)

end Scans

/-! ## Point reads -/

/-- Nothing can mislead a point read of the key. -/
structure Unambiguous (e : Engine) (key : Bytes) : Prop where
  unrouted : e.hotKeyCache[key]? = none
  /-- A key index answers for one version of a key only. -/
  single : ∀ i index, e.IsLive i → e.keyIndexFor i = some index →
    (versionsOf (e.rowsOf i) key).length ≤ 1
  /-- The loop takes the answer of one leveled file only. -/
  leveled : ∀ i j, e.IsLive i → e.IsLive j → 0 < e.levelOf i → 0 < e.levelOf j →
    versionsOf (e.rowsOf i) key ≠ [] → versionsOf (e.rowsOf j) key ≠ [] → i = j
  /-- The key indexes are below the limit of their 32-bit offsets. -/
  sized : ∀ i, e.IsLive i → KeyIndex.layoutSize (e.rowsOf i) < 2 ^ 32

section Gets

variable {e : Engine} {key : Bytes} {s i : ℕ} (h : e.ReadInv) (hseq : e.commitSeq ≤ openEndedTs)
  (hplain : e.Unambiguous key)

include h hseq hplain

theorem lookup_eq_sstGet (hi : e.IsLive i) :
    (match e.keyIndexFor i with
      | some index => index.visible key s
      | none => sstGet (e.rowsOf i) key s) = sstGet (e.rowsOf i) key s := by
  cases hindex : e.keyIndexFor i with
  | none => rfl
  | some index =>
    obtain rfl := h.written.keyIndexFor hindex
    exact KeyIndex.visible_eq_sstGet_of_single
      (h.inv.indexable_rowsOf hseq hi (hplain.sized i hi)) (hplain.single i _ hi hindex) s

theorem visible_of_holds (hi : e.IsLive i) (hkey : versionsOf (e.rowsOf i) key ≠ []) :
    (e.probeFile key s i).visible = sstGet (e.rowsOf i) key s := by
  obtain ⟨v, hv⟩ := List.exists_mem_of_ne_nil _ hkey
  have hbloom : ∀ filter, e.bloomFor i = some filter → filter.contains key = true := by
    intro filter hfilter
    have hcontains := h.written.contains_bloomFor hfilter (mem_versionsOf.mp hv)
    exact hcontains
  rw [visible_probeFile (rangeMayContain_of_candidate (candidate_of_holds h.inv hi hkey)) hbloom]
  exact lookup_eq_sstGet h hseq hplain hi

theorem holds_of_found (hi : e.IsLive i) (hfound : (e.probeFile key s i).isFound = true) :
    versionsOf (e.rowsOf i) key ≠ [] := by
  rw [probeFile] at hfound
  split at hfound
  next => cases hfound
  next =>
    split at hfound
    next => cases hfound
    next =>
      split at hfound
      next index hindex =>
        split at hfound
        next version hget =>
          obtain rfl := h.written.keyIndexFor hindex
          obtain ⟨v, hv, -⟩ := KeyIndex.get_fromRows_some
            (h.inv.indexable_rowsOf hseq hi (hplain.sized i hi)) hget
          exact List.ne_nil_of_mem hv
        next => cases hfound
      next =>
        split at hfound
        next version hget =>
          obtain ⟨v, hv, -⟩ := (sstGet_eq_some_iff h.inv hi).mp hget
          exact List.ne_nil_of_mem hv
        next => cases hfound

theorem mem_offers_plain :
    (i, v) ∈ offers (answers e.levelOf (e.probeFile key s) false
        (e.versionSet.candidateFiles key)) ↔
      e.IsLive i ∧ ∃ u ∈ versionsOf (e.rowsOf i) key, u.visibleAt s = true ∧ u.stored = v := by
  rw [mem_offers]
  simp only [mem_answers, true_and]
  constructor
  · rintro ⟨indexed, hprobe, hconsulted⟩
    have hcandidate : i ∈ e.versionSet.candidateFiles key := by
      rcases hconsulted with hzero | hfirst
      · exact hzero.1
      · exact List.mem_of_find?_eq_some hfirst
    have hi := isLive_of_candidate h.inv hcandidate
    have hfound : (e.probeFile key s i).isFound = true := by
      rw [hprobe]
      rfl
    have hvisible := visible_of_holds (s := s) h hseq hplain hi
      (holds_of_found h hseq hplain hi hfound)
    rw [hprobe] at hvisible
    exact ⟨hi, (sstGet_eq_some_iff h.inv hi).mp hvisible.symm⟩
  · rintro ⟨hi, u, hu, hsees, rfl⟩
    have hkey : versionsOf (e.rowsOf i) key ≠ [] := List.ne_nil_of_mem hu
    have hcandidate := candidate_of_holds h.inv hi hkey
    have hvisible := visible_of_holds (s := s) h hseq hplain hi hkey
    rw [(sstGet_eq_some_iff h.inv hi).mpr ⟨u, hu, hsees, rfl⟩] at hvisible
    cases hprobe : e.probeFile key s i with
    | absent =>
      rw [hprobe] at hvisible
      cases hvisible
    | found visible indexed =>
      rw [hprobe] at hvisible
      obtain rfl : visible = some u.stored := hvisible
      refine ⟨indexed, rfl, ?_⟩
      by_cases hlevel : e.levelOf i = 0
      · exact .inl ⟨hcandidate, hlevel⟩
      · right
        -- Every leveled file that answers is this one, so it is the first.
        have hanswers : (decide (0 < e.levelOf i) && (e.probeFile key s i).isFound) = true := by
          rw [hprobe]
          simp [Probe.isFound, Nat.pos_of_ne_zero hlevel]
        have hsome : ((e.versionSet.candidateFiles key).find? fun i ↦
            decide (0 < e.levelOf i) && (e.probeFile key s i).isFound).isSome :=
          List.find?_isSome.mpr ⟨i, hcandidate, hanswers⟩
        obtain ⟨j, hj⟩ := Option.isSome_iff_exists.mp hsome
        have hfirst := List.find?_some hj
        rw [Bool.and_eq_true, decide_eq_true_eq] at hfirst
        have hjlive := isLive_of_candidate h.inv (List.mem_of_find?_eq_some hj)
        rw [hj, hplain.leveled i j hi hjlive (Nat.pos_of_ne_zero hlevel) hfirst.1 hkey
          (holds_of_found h hseq hplain hjlive hfirst.2)]

theorem searchFiles_plain {p : ℕ × Option Bytes} :
    (e.searchFiles key s).newest.map VersionedValue.stamp = some p ↔
      NewestVisible (e.liveVersions key) s p := by
  rw [searchFiles, search_newest, Option.map_map]
  constructor
  · intro hfound
    obtain ⟨⟨i, v⟩, hmax, rfl⟩ := Option.map_eq_some_iff.mp hfound
    obtain ⟨hi, u, hu, hsees, rfl⟩ := (mem_offers_plain h hseq hplain).mp (List.argmax_mem hmax)
    refine ⟨u, ⟨i, hi, hu⟩, hsees, rfl, ?_⟩
    rintro x ⟨j, hj, hx⟩ hxs
    have hle := List.le_of_mem_argmax
      ((mem_offers_plain h hseq hplain).mpr ⟨hj, x, hx, hxs, rfl⟩) hmax
    exact hle
  · rintro ⟨u, ⟨i, hi, hu⟩, hsees, rfl, hnewest⟩
    have hoffer := (mem_offers_plain h hseq hplain).mpr ⟨hi, u, hu, hsees, rfl⟩
    cases hmax : (offers (answers e.levelOf (e.probeFile key s) false
        (e.versionSet.candidateFiles key))).argmax fun x ↦ x.2.beginTs with
    | none =>
      rw [List.argmax_eq_none] at hmax
      rw [hmax] at hoffer
      cases hoffer
    | some x =>
      obtain ⟨j, v⟩ := x
      obtain ⟨hj, y, hy, hys, rfl⟩ := (mem_offers_plain h hseq hplain).mp (List.argmax_mem hmax)
      have hle := List.le_of_mem_argmax hoffer hmax
      have hstamp := h.inv.unique key y.stamp (.inr ⟨y, ⟨j, hj, hy⟩, rfl⟩) u.stamp
        (.inr ⟨u, ⟨i, hi, hu⟩, rfl⟩) (le_antisymm (hnewest y ⟨j, hj, hy⟩ hys) hle)
      exact congrArg some hstamp

end Gets

/-- A compaction changes no point read of a key that is unambiguous before and
after it. -/
theorem ReadInv.get_compactChunks {e : Engine} (h : e.ReadInv) (hseq : e.commitSeq ≤ openEndedTs)
    {src tgt w s : ℕ} {chunks : List (List ℕ)} {env : ℕ → SstEnv}
    (hsplit : e.Splits src tgt chunks) (hws : w ≤ s) {key : Bytes} (hplain : e.Unambiguous key)
    (hplain' : (e.merged src tgt w chunks env).Unambiguous key) :
    ((e.merged src tgt w chunks env).get key s).1 = (e.get key s).1 := by
  have h' : (e.merged src tgt w chunks env).ReadInv := h.compacts (.chunks env hsplit)
  have hnewest : ((e.merged src tgt w chunks env).searchFiles key s).newest.map
      VersionedValue.stamp =
        (e.searchFiles key s).newest.map VersionedValue.stamp := by
    ext p
    rw [searchFiles_plain h' hseq hplain', searchFiles_plain h hseq hplain,
      h.inv.newestVisible_compactChunks hseq hsplit hws]
  have hvalue : ∀ {a b : Option VersionedValue},
      a.map VersionedValue.stamp = b.map VersionedValue.stamp →
        a.bind VersionedValue.value = b.bind VersionedValue.value := fun {a b} hstamp ↦ by
    cases a with
    | none => cases b with
      | none => rfl
      | some _ => cases hstamp
    | some _ => cases b with
      | none => cases hstamp
      | some _ => exact congrArg Prod.snd (Option.some.inj hstamp)
  have hunrouted : ∀ {e : Engine}, e.Unambiguous key → e.hotKeyHit key s = none :=
    fun hplain ↦ by
      rw [hotKeyHit, hplain.unrouted]
      rfl
  rw [get_fst, get_fst, hunrouted hplain, hunrouted hplain', Option.or_none, Option.or_none]
  change (if e.isDroppedPrefix key then none else ((e.memtable.get key s).or _).bind _) = _
  cases e.memtable.get key s with
  | none => rw [Option.none_or, Option.none_or, hvalue hnewest]
  | some version => rfl

end Engine

end HatP
