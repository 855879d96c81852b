import HatP.Lib.ByteOrder
import HatP.Lib.Newest

/-!
# Version chains

One logical key owns a chain of versions, newest first.  A version is visible
to the snapshots in the half-open interval from its `beginTs` to its `endTs`;
installing a newer version closes the interval of the older one.
-/

namespace HatP

open Newest

abbrev Bytes := List UInt8

def maxU64 : ℕ := 2 ^ 64 - 1

/-- Commit timestamps are `u64` in the source and natural numbers here.  This is
the open end of the newest version's interval. -/
def openEndedTs : ℕ := maxU64

def saturatingAdd (a b : ℕ) : ℕ := min (a + b) maxU64

structure VersionedValue where
  /-- The row payload; `none` is a delete tombstone. -/
  value : Option Bytes
  beginTs : ℕ
  endTs : ℕ
  txId : ℕ
deriving DecidableEq

namespace VersionedValue

def live (value : Bytes) (ts : ℕ) (txId : ℕ) : VersionedValue :=
  ⟨some value, ts, openEndedTs, txId⟩

def tombstone (ts : ℕ) (txId : ℕ) : VersionedValue :=
  ⟨none, ts, openEndedTs, txId⟩

def visibleAt (v : VersionedValue) (snapshotTs : ℕ) : Bool :=
  decide (v.beginTs ≤ snapshotTs ∧ snapshotTs < v.endTs)

@[simp] theorem visibleAt_eq_true {v : VersionedValue} {s : ℕ} :
    v.visibleAt s = true ↔ v.beginTs ≤ s ∧ s < v.endTs := by
  simp [visibleAt]

/-- What identifies a version of a key: the commit that wrote it and the value
it wrote.  Flushes and compactions may close or reopen the interval. -/
def stamp (v : VersionedValue) : ℕ × Option Bytes :=
  (v.beginTs, v.value)

end VersionedValue

def stamps (vs : List VersionedValue) : Set (ℕ × Option Bytes) :=
  {p | ∃ v ∈ vs, v.stamp = p}

@[simp] theorem stamps_nil : stamps [] = ∅ := by
  simp [stamps]

variable {vs : List VersionedValue} {v version : VersionedValue} {cap upper : ℕ}

theorem mem_stamps_cons
    {p : ℕ × Option Bytes} : p ∈ stamps (v :: vs) ↔ v.stamp = p ∨ p ∈ stamps vs := by
  simp [stamps]

theorem stamp_mem_stamps (h : v ∈ vs) : v.stamp ∈ stamps vs :=
  ⟨v, h, rfl⟩

def Descending (vs : List VersionedValue) : Prop :=
  vs.Pairwise fun newer older ↦ older.beginTs < newer.beginTs

theorem Descending.eq_of_beginTs (h : Descending vs)
    {u : VersionedValue} (hu : u ∈ vs) (hv : v ∈ vs) (huv : u.beginTs = v.beginTs) : u = v := by
  have hnodup : (vs.map VersionedValue.beginTs).Nodup :=
    List.pairwise_map.mpr (h.imp fun hlt ↦ hlt.ne')
  exact List.inj_on_of_nodup_map hnodup hu hv huv

/-- The intervals tile the time below `upper`: the first version ends at
`upper` and every other one where its predecessor begins. -/
def EndsFrom : ℕ → List VersionedValue → Prop
  | _, [] => True
  | upper, v :: vs => v.endTs = upper ∧ EndsFrom v.beginTs vs

instance decidableEndsFrom : ∀ upper vs, Decidable (EndsFrom upper vs)
  | _, [] => isTrue trivial
  | upper, v :: vs =>
    have := decidableEndsFrom v.beginTs vs
    inferInstanceAs (Decidable (v.endTs = upper ∧ EndsFrom v.beginTs vs))

/-! ## Installing a version -/

/-- The part of `VersionChain::insert` behind the head fast path: walk to the
partition point, where `cap` is the `beginTs` of the newer neighbour, and
overwrite the version with the same `beginTs` or splice the new one in. -/
def spliceVersion (cap : ℕ) (version : VersionedValue) :
    List VersionedValue → List VersionedValue
  | [] => [{ version with endTs := cap }]
  | c :: cs =>
    if version.beginTs < c.beginTs then
      c :: spliceVersion c.beginTs version cs
    else if c.beginTs = version.beginTs then
      { version with endTs := c.endTs } :: cs
    else
      { version with endTs := cap } ::
        { c with endTs := min c.endTs version.beginTs } :: cs

def insertVersion (version : VersionedValue) : List VersionedValue → List VersionedValue
  | [] => [version]
  | head :: tail =>
    if head.beginTs < version.beginTs then
      version :: { head with endTs := version.beginTs } :: tail
    else
      spliceVersion version.endTs version (head :: tail)

theorem beginTs_mem_splice (h : v ∈ spliceVersion cap version vs) :
    v.beginTs = version.beginTs ∨ ∃ u ∈ vs, u.beginTs = v.beginTs := by
  induction vs generalizing cap with
  | nil =>
    obtain rfl := List.mem_singleton.mp h
    exact Or.inl rfl
  | cons c cs ih =>
    simp only [spliceVersion] at h
    split_ifs at h with hlt heq
    · rcases List.mem_cons.mp h with rfl | h
      · exact Or.inr ⟨v, .head _, rfl⟩
      · rcases ih h with hv | ⟨u, hu, huv⟩
        · exact Or.inl hv
        · exact Or.inr ⟨u, List.mem_cons_of_mem c hu, huv⟩
    · rcases List.mem_cons.mp h with rfl | h
      · exact Or.inl rfl
      · exact Or.inr ⟨v, List.mem_cons_of_mem c h, rfl⟩
    · rcases List.mem_cons.mp h with rfl | h
      · exact Or.inl rfl
      · rcases List.mem_cons.mp h with rfl | h
        · exact Or.inr ⟨c, .head _, rfl⟩
        · exact Or.inr ⟨v, List.mem_cons_of_mem c h, rfl⟩

theorem descending_splice (hvs : Descending vs) : Descending (spliceVersion cap version vs) := by
  induction vs generalizing cap with
  | nil => exact List.pairwise_singleton _ _
  | cons c cs ih =>
    obtain ⟨hc, hcs⟩ := List.pairwise_cons.mp hvs
    simp only [spliceVersion]
    split_ifs with hlt heq
    · refine List.pairwise_cons.mpr ⟨fun v hv ↦ ?_, ih hcs⟩
      rcases beginTs_mem_splice hv with hv | ⟨u, hu, huv⟩
      · exact hv ▸ hlt
      · exact huv ▸ hc u hu
    · exact List.pairwise_cons.mpr ⟨fun v hv ↦ heq ▸ hc v hv, hcs⟩
    · have hgt : c.beginTs < version.beginTs := by omega
      refine List.pairwise_cons.mpr ⟨fun v hv ↦ ?_, List.pairwise_cons.mpr ⟨hc, hcs⟩⟩
      rcases List.mem_cons.mp hv with rfl | hv
      · exact hgt
      · exact (hc v hv).trans hgt

theorem descending_insertVersion (hvs : Descending vs) : Descending (insertVersion version vs) := by
  cases vs with
  | nil => exact List.pairwise_singleton _ _
  | cons head tail =>
    simp only [insertVersion]
    split_ifs with hlt
    · obtain ⟨hhead, htail⟩ := List.pairwise_cons.mp hvs
      refine List.pairwise_cons.mpr ⟨fun v hv ↦ ?_, List.pairwise_cons.mpr ⟨hhead, htail⟩⟩
      rcases List.mem_cons.mp hv with rfl | hv
      · exact hlt
      · exact (hhead v hv).trans hlt
    · exact descending_splice hvs

theorem endsFrom_splice (hcap : version.beginTs ≤ cap) (hvs : EndsFrom cap vs) :
    EndsFrom cap (spliceVersion cap version vs) := by
  induction vs generalizing cap with
  | nil => exact ⟨rfl, trivial⟩
  | cons c cs ih =>
    obtain ⟨hc, hcs⟩ := hvs
    simp only [spliceVersion]
    split_ifs with hlt heq
    · exact ⟨hc, ih hlt.le hcs⟩
    · exact ⟨hc, heq ▸ hcs⟩
    · refine ⟨rfl, ?_, hcs⟩
      simp only [hc]
      exact min_eq_right hcap

/-- Installing an open-ended version keeps the intervals contiguous, wherever
in the chain its timestamp falls. -/
theorem endsFrom_insertVersion
    (hopen : version.endTs = openEndedTs) (hvs : EndsFrom openEndedTs vs) :
    EndsFrom openEndedTs (insertVersion version vs) := by
  cases vs with
  | nil => exact ⟨hopen, trivial⟩
  | cons head tail =>
    obtain ⟨hhead, htail⟩ := hvs
    simp only [insertVersion]
    split_ifs with hlt
    · exact ⟨hopen, rfl, htail⟩
    · simp only [spliceVersion]
      split_ifs with hbelow heq
      · exact ⟨hhead, endsFrom_splice hbelow.le htail⟩
      · exact ⟨hhead, heq ▸ htail⟩
      · omega

theorem stamps_splice (hvs : Descending vs) (p : ℕ × Option Bytes) :
    p ∈ stamps (spliceVersion cap version vs) ↔
      p = version.stamp ∨ p.1 ≠ version.beginTs ∧ p ∈ stamps vs := by
  induction vs generalizing cap with
  | nil => simp [spliceVersion, stamps, VersionedValue.stamp, eq_comm]
  | cons c cs ih =>
    obtain ⟨hc, hcs⟩ := List.pairwise_cons.mp hvs
    have hne : ∀ t, c.beginTs ≤ t → p ∈ stamps cs → p.1 ≠ t := by
      rintro t ht ⟨v, hv, rfl⟩
      exact ((hc v hv).trans_le ht).ne
    simp only [spliceVersion]
    split_ifs with hlt heq
    · rw [mem_stamps_cons, mem_stamps_cons, ih hcs]
      constructor
      · rintro (rfl | h | h)
        · exact Or.inr ⟨hlt.ne', Or.inl rfl⟩
        · exact Or.inl h
        · exact Or.inr ⟨h.1, Or.inr h.2⟩
      · rintro (h | ⟨h, rfl | h'⟩)
        · exact Or.inr (Or.inl h)
        · exact Or.inl rfl
        · exact Or.inr (Or.inr ⟨h, h'⟩)
    · rw [mem_stamps_cons, mem_stamps_cons]
      constructor
      · rintro (rfl | h)
        · exact Or.inl rfl
        · exact Or.inr ⟨hne _ heq.le h, Or.inr h⟩
      · rintro (rfl | ⟨h, rfl | h'⟩)
        · exact Or.inl rfl
        · exact absurd heq h
        · exact Or.inr h'
    · rw [mem_stamps_cons, mem_stamps_cons, mem_stamps_cons]
      have hgt : c.beginTs < version.beginTs := by omega
      constructor
      · rintro (rfl | rfl | h)
        · exact Or.inl rfl
        · exact Or.inr ⟨hgt.ne, Or.inl rfl⟩
        · exact Or.inr ⟨hne _ hgt.le h, Or.inr h⟩
      · rintro (rfl | ⟨_, rfl | h'⟩)
        · exact Or.inl rfl
        · exact Or.inr (Or.inl rfl)
        · exact Or.inr (Or.inr h')

/-- Installing a version replaces the one with its timestamp, if any, and
leaves every other version of the key in place. -/
theorem stamps_insertVersion (hvs : Descending vs) (p : ℕ × Option Bytes) :
    p ∈ stamps (insertVersion version vs) ↔
      p = version.stamp ∨ p.1 ≠ version.beginTs ∧ p ∈ stamps vs := by
  cases vs with
  | nil => simp [insertVersion, stamps, eq_comm]
  | cons head tail =>
    simp only [insertVersion]
    split_ifs with hlt
    · have hbelow : ∀ v ∈ head :: tail, v.beginTs < version.beginTs := by
        intro v hv
        rcases List.mem_cons.mp hv with rfl | hv
        · exact hlt
        · exact ((List.pairwise_cons.mp hvs).1 v hv).trans hlt
      have hne : p ∈ stamps (head :: tail) → p.1 ≠ version.beginTs := by
        rintro ⟨v, hv, rfl⟩
        exact (hbelow v hv).ne
      have hsame : p ∈ stamps ({ head with endTs := version.beginTs } :: tail) ↔
          p ∈ stamps (head :: tail) := by
        simp [stamps, VersionedValue.stamp]
      constructor
      · rintro ⟨v, hv, rfl⟩
        rcases List.mem_cons.mp hv with rfl | hv
        · exact Or.inl rfl
        · have h := hsame.mp (stamp_mem_stamps hv)
          exact Or.inr ⟨hne h, h⟩
      · rintro (rfl | ⟨_, h⟩)
        · exact stamp_mem_stamps (.head _)
        · obtain ⟨v, hv, rfl⟩ := hsame.mpr h
          exact stamp_mem_stamps (.tail _ hv)
    · exact stamps_splice hvs p

/-! ## Reading a chain -/

theorem endTs_le_of_endsFrom
    (hdesc : Descending vs) (hends : EndsFrom upper vs) (hbelow : ∀ u ∈ vs, u.beginTs < upper)
    (hv : v ∈ vs) : v.beginTs < v.endTs ∧ v.endTs ≤ upper := by
  induction vs generalizing upper with
  | nil => simp at hv
  | cons c cs ih =>
    obtain ⟨hc, hcs⟩ := List.pairwise_cons.mp hdesc
    rcases List.mem_cons.mp hv with rfl | hv
    · exact ⟨hends.1 ▸ hbelow v (.head _), hends.1.le⟩
    · obtain ⟨hlt, hle⟩ := ih hcs hends.2 hc hv
      exact ⟨hlt, hle.trans (hbelow c (.head _)).le⟩

theorem find?_visibleAt {s : ℕ} (hs : s < upper) (hends : EndsFrom upper vs) :
    vs.find? (·.visibleAt s) = vs.find? (fun v ↦ decide (v.beginTs ≤ s)) := by
  induction vs generalizing upper with
  | nil => rfl
  | cons c cs ih =>
    obtain ⟨hc, hcs⟩ := hends
    by_cases hbegun : c.beginTs ≤ s
    · simp [VersionedValue.visibleAt, hbegun, hc, hs]
    · simp only [List.find?_cons, VersionedValue.visibleAt, hbegun, false_and, decide_false]
      exact ih (by omega) hcs

theorem EndsFrom.endTs_cases (hends : EndsFrom upper vs) (hv : v ∈ vs) :
    v.endTs = upper ∨ ∃ u ∈ vs, v.endTs = u.beginTs := by
  induction vs generalizing upper with
  | nil => cases hv
  | cons c cs ih =>
    rcases List.mem_cons.mp hv with rfl | hmem
    · exact .inl hends.1
    · rcases ih hends.2 hmem with hend | ⟨u, hu, hend⟩
      · exact .inr ⟨c, .head _, hend⟩
      · exact .inr ⟨u, List.mem_cons_of_mem c hu, hend⟩

theorem visibleAt_next {ts : ℕ}
    (hends : EndsFrom openEndedTs vs) (hbegun : ∀ u ∈ vs, u.beginTs < ts) (hts : ts < openEndedTs)
    (hv : v ∈ vs) : v.visibleAt ts = v.visibleAt (ts - 1) := by
  have hbegin := hbegun v hv
  rw [Bool.eq_iff_iff, VersionedValue.visibleAt_eq_true, VersionedValue.visibleAt_eq_true]
  rcases hends.endTs_cases hv with hend | ⟨u, hu, hend⟩
  · omega
  · have := hbegun u hu
    omega

theorem eq_of_visibleAt {s : ℕ} {u : VersionedValue}
    (hdesc : Descending vs) (hends : EndsFrom upper vs) (hu : u ∈ vs) (hv : v ∈ vs)
    (hus : u.visibleAt s = true) (hvs : v.visibleAt s = true) : u = v := by
  rw [VersionedValue.visibleAt_eq_true] at hus hvs
  induction vs generalizing upper with
  | nil => simp at hu
  | cons c cs ih =>
    obtain ⟨hc, hcs⟩ := List.pairwise_cons.mp hdesc
    have hbound : ∀ x ∈ cs, x.endTs ≤ c.beginTs :=
      fun x hx ↦ (endTs_le_of_endsFrom hcs hends.2 hc hx).2
    rcases List.mem_cons.mp hu with rfl | hu' <;> rcases List.mem_cons.mp hv with rfl | hv'
    · rfl
    · have := hbound v hv'
      omega
    · have := hbound u hu'
      omega
    · exact ih hcs hends.2 hu' hv'

/-- A chain that violates the newest-first order cannot be built. -/
@[ext] structure VersionChain where
  versions : List VersionedValue
  descending : Descending versions

namespace VersionChain

variable {chain : VersionChain}

instance : DecidableEq VersionChain := fun c d ↦
  decidable_of_iff (c.versions = d.versions) VersionChain.ext_iff.symm

def empty : VersionChain := ⟨[], List.Pairwise.nil⟩

def insert (chain : VersionChain) (version : VersionedValue) : VersionChain :=
  ⟨insertVersion version chain.versions, descending_insertVersion chain.descending⟩

/-- The newest version visible at `snapshot`.  The source checks the head
before the scan; that is the scan's first iteration. -/
def get (chain : VersionChain) (snapshot : ℕ) : Option VersionedValue :=
  chain.versions.find? (·.visibleAt snapshot)

def garbageCollect (chain : VersionChain) (oldestActiveTs : ℕ) : VersionChain :=
  match chain.versions.head? with
  | none => chain
  | some newest =>
    ⟨chain.versions.filter fun v ↦
        v.beginTs == newest.beginTs || decide (oldestActiveTs < v.endTs),
      chain.descending.filter _⟩

/-- Contiguous intervals with an open-ended newest version: what a chain built
by installing live rows and tombstones satisfies. -/
def Tiled (chain : VersionChain) : Prop :=
  EndsFrom openEndedTs chain.versions

theorem tiled_empty : empty.Tiled :=
  trivial

theorem Tiled.insert {version : VersionedValue} (h : chain.Tiled)
    (hopen : version.endTs = openEndedTs) : (chain.insert version).Tiled :=
  endsFrom_insertVersion hopen h

theorem get_isNewestAt {s : ℕ} {v : VersionedValue}
    (h : chain.Tiled) (hs : s < openEndedTs) (hget : chain.get s = some v) :
    IsNewestAt VersionedValue.beginTs {u | u ∈ chain.versions} s v := by
  rw [get, find?_visibleAt hs h] at hget
  exact isNewestAt_of_find? chain.descending hget

theorem get_eq_none_iff {s : ℕ} (h : chain.Tiled)
    (hs : s < openEndedTs) : chain.get s = none ↔ ∀ v ∈ chain.versions, s < v.beginTs := by
  rw [get, find?_visibleAt hs h]
  simp

end VersionChain

/-! ## Collecting old versions -/

/-- Behind the newest version the collector keeps a leading block: a version
goes exactly when its successor has begun at or before the watermark. -/
theorem lt_endTs_iff {w : ℕ}
    (hdesc : Descending vs) (hends : EndsFrom upper vs) (hbelow : ∀ u ∈ vs, u.beginTs < upper)
    (hv : v ∈ vs) :
    w < v.endTs ↔ w < upper ∧ ∀ u ∈ vs, v.beginTs < u.beginTs → w < u.beginTs := by
  induction vs generalizing upper with
  | nil => simp at hv
  | cons c cs ih =>
    obtain ⟨hc, hcs⟩ := List.pairwise_cons.mp hdesc
    obtain ⟨hend, hends⟩ := hends
    rcases List.mem_cons.mp hv with rfl | hv
    · rw [hend]
      refine ⟨fun hw ↦ ⟨hw, fun u hu hlt ↦ ?_⟩, fun h ↦ h.1⟩
      rcases List.mem_cons.mp hu with rfl | hu
      · exact absurd hlt (lt_irrefl _)
      · exact absurd hlt (hc u hu).not_gt
    · rw [ih hcs hends hc hv]
      constructor
      · rintro ⟨hw, hrest⟩
        refine ⟨hw.trans (hbelow c (.head _)), fun u hu hlt ↦ ?_⟩
        rcases List.mem_cons.mp hu with rfl | hu
        · exact hw
        · exact hrest u hu hlt
      · rintro ⟨-, hrest⟩
        exact ⟨hrest c (.head _) (hc v hv),
          fun u hu hlt ↦ hrest u (List.mem_cons_of_mem c hu) hlt⟩

theorem endsFrom_filter {w : ℕ} (hdesc : Descending vs)
    (hends : EndsFrom upper vs) (hbelow : ∀ u ∈ vs, u.beginTs < upper) :
    EndsFrom upper (vs.filter fun v ↦ decide (w < v.endTs)) := by
  induction vs generalizing upper with
  | nil => exact hends
  | cons c cs ih =>
    obtain ⟨hc, hcs⟩ := List.pairwise_cons.mp hdesc
    obtain ⟨hend, hends⟩ := hends
    by_cases hw : w < c.endTs
    · rw [List.filter_cons_of_pos (by simpa using hw)]
      exact ⟨hend, ih hcs hends hc⟩
    · have hnone : (c :: cs).filter (fun v ↦ decide (w < v.endTs)) = [] := by
        refine List.filter_eq_nil_iff.mpr fun v hv ↦ ?_
        have hle := (endTs_le_of_endsFrom hdesc ⟨hend, hends⟩ hbelow hv).2
        simp only [decide_eq_true_eq]
        omega
      rw [hnone]
      trivial

namespace VersionChain

variable {chain : VersionChain}

theorem garbageCollect_versions_cons {newest : VersionedValue}
    {older : List VersionedValue} (w : ℕ) (h : chain.versions = newest :: older) :
    (chain.garbageCollect w).versions = newest :: older.filter fun v ↦ decide (w < v.endTs) := by
  have hdesc := chain.descending
  rw [h] at hdesc
  have holder := (List.pairwise_cons.mp hdesc).1
  simp only [garbageCollect, h, List.head?_cons, List.filter_cons, BEq.rfl, Bool.true_or,
    if_true, List.cons.injEq, true_and]
  refine List.filter_congr fun v hv ↦ ?_
  simp [(holder v hv).ne]

theorem garbageCollect_garbageCollect (chain : VersionChain) (w w' : ℕ) :
    (chain.garbageCollect w).garbageCollect w' = chain.garbageCollect (max w w') := by
  rcases hvs : chain.versions with _ | ⟨newest, older⟩
  · simp [garbageCollect, hvs]
  · have hfirst := garbageCollect_versions_cons w hvs
    apply VersionChain.ext
    rw [garbageCollect_versions_cons w' hfirst, garbageCollect_versions_cons _ hvs,
      List.filter_filter]
    simp [Bool.and_comm]

/-- The collector keeps exactly the versions none of whose successors has
begun at or before the watermark. -/
theorem mem_garbageCollect {w : ℕ} {v : VersionedValue} (h : chain.Tiled) :
    v ∈ (chain.garbageCollect w).versions ↔
      v ∈ chain.versions ∧ ∀ u ∈ chain.versions, v.beginTs < u.beginTs → w < u.beginTs := by
  have hdesc := chain.descending
  unfold Tiled at h
  rcases hvs : chain.versions with _ | ⟨newest, older⟩
  · simp [garbageCollect, hvs]
  rw [garbageCollect_versions_cons w hvs]
  rw [hvs] at hdesc h
  obtain ⟨hnewest, holder⟩ := List.pairwise_cons.mp hdesc
  have hkept : ∀ u ∈ older, w < u.endTs ↔
      ∀ x ∈ newest :: older, u.beginTs < x.beginTs → w < x.beginTs := by
    intro u hu
    rw [lt_endTs_iff holder h.2 hnewest hu, List.forall_mem_cons]
    exact and_congr_left fun _ ↦ ⟨fun hw _ ↦ hw, fun hw ↦ hw (hnewest u hu)⟩
  rw [List.mem_cons, List.mem_cons, List.mem_filter, decide_eq_true_eq]
  constructor
  · rintro (rfl | ⟨hv, hw⟩)
    · refine ⟨Or.inl rfl, fun u hu hlt ↦ ?_⟩
      rcases List.mem_cons.mp hu with rfl | hu
      · exact absurd hlt (lt_irrefl _)
      · exact absurd hlt (hnewest u hu).not_gt
    · exact ⟨Or.inr hv, (hkept v hv).mp hw⟩
  · rintro ⟨rfl | hv, hw⟩
    · exact Or.inl rfl
    · exact Or.inr ⟨hv, (hkept v hv).mpr hw⟩

theorem Tiled.garbageCollect (h : chain.Tiled) (w : ℕ) : (chain.garbageCollect w).Tiled := by
  have hdesc := chain.descending
  unfold Tiled at h ⊢
  rcases hvs : chain.versions with _ | ⟨newest, older⟩
  · simp [VersionChain.garbageCollect, hvs, EndsFrom]
  rw [garbageCollect_versions_cons w hvs]
  rw [hvs] at hdesc h
  obtain ⟨hnewest, holder⟩ := List.pairwise_cons.mp hdesc
  exact ⟨h.1, endsFrom_filter holder h.2 hnewest⟩

end VersionChain

end HatP
