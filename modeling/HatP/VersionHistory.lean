import HatP.Version

/-!
# The history of a version chain

What was installed last at each timestamp is a map that never forgets.  The
chain itself drops versions at every collection, and yet it answers like the
map for the snapshots that no collection has passed.
-/

namespace HatP

open Newest

/-- The calls that change a chain. -/
inductive ChainOp where
  | insert (version : VersionedValue)
  | garbageCollect (oldestSnapshot : ℕ)

namespace ChainOp

/-- Versions are constructed open-ended, at a timestamp below `u64::MAX`. -/
def Valid : ChainOp → Prop
  | insert version => version.endTs = openEndedTs ∧ version.beginTs < openEndedTs
  | garbageCollect _ => True

def apply (chain : VersionChain) : ChainOp → VersionChain
  | insert version => chain.insert version
  | garbageCollect oldestSnapshot => chain.garbageCollect oldestSnapshot

def record (written : ℕ → Option (Option Bytes)) : ChainOp → ℕ → Option (Option Bytes)
  | insert version => Function.update written version.beginTs (some version.value)
  | garbageCollect _ => written

def raise (watermark : ℕ) : ChainOp → ℕ
  | insert _ => watermark
  | garbageCollect oldestSnapshot => max watermark oldestSnapshot

def chain (ops : List ChainOp) : VersionChain :=
  ops.foldl apply .empty

def written (ops : List ChainOp) : ℕ → Option (Option Bytes) :=
  ops.foldl record fun _ ↦ none

def watermark (ops : List ChainOp) : ℕ :=
  ops.foldl raise 0

end ChainOp

/-- The chain holds only what the map holds, and a timestamp of the map that it
no longer holds is covered by a version that had begun at the watermark. -/
structure Implements (chain : VersionChain) (written : ℕ → Option (Option Bytes))
    (watermark : ℕ) : Prop where
  tiled : chain.Tiled
  written_of_mem : ∀ v ∈ chain.versions, written v.beginTs = some v.value
  covered : ∀ ts value, written ts = some value →
    (∃ v ∈ chain.versions, v.beginTs = ts) ∨
      ∃ v ∈ chain.versions, ts < v.beginTs ∧ v.beginTs ≤ watermark

namespace Implements

variable {chain : VersionChain} {written : ℕ → Option (Option Bytes)} {watermark : ℕ}

theorem empty : Implements .empty (fun _ ↦ none) 0 where
  tiled := VersionChain.tiled_empty
  written_of_mem v hv := by cases hv
  covered ts value h := by simp at h

theorem exists_insert_of_mem (version : VersionedValue) {v : VersionedValue}
    (hv : v ∈ chain.versions) : ∃ u ∈ (chain.insert version).versions, u.beginTs = v.beginTs := by
  by_cases hts : v.beginTs = version.beginTs
  · obtain ⟨u, hu, hstamp⟩ := (stamps_insertVersion chain.descending version.stamp).mpr (.inl rfl)
    exact ⟨u, hu, (congrArg Prod.fst hstamp).trans hts.symm⟩
  · have hkept : v.stamp ∈ stamps (chain.insert version).versions :=
      (stamps_insertVersion chain.descending v.stamp).mpr (.inr ⟨hts, stamp_mem_stamps hv⟩)
    obtain ⟨u, hu, hstamp⟩ := hkept
    exact ⟨u, hu, congrArg Prod.fst hstamp⟩

section

variable (h : Implements chain written watermark)

include h

theorem insert {version : VersionedValue} (hopen : version.endTs = openEndedTs) :
    Implements (chain.insert version)
      (Function.update written version.beginTs (some version.value)) watermark where
  tiled := h.tiled.insert hopen
  written_of_mem v hv := by
    rcases (stamps_insertVersion chain.descending v.stamp).mp (stamp_mem_stamps hv) with
      hnew | ⟨hne, u, hu, hstamp⟩
    · obtain ⟨hts, hvalue⟩ := Prod.mk.inj hnew
      rw [hts, Function.update_self, hvalue]
    · obtain ⟨hts, hvalue⟩ := Prod.mk.inj hstamp
      have hother : v.beginTs ≠ version.beginTs := hne
      rw [Function.update_of_ne hother, ← hts, ← hvalue]
      exact h.written_of_mem u hu
  covered ts value hwritten := by
    by_cases hts : ts = version.beginTs
    · obtain ⟨u, hu, hstamp⟩ := (stamps_insertVersion chain.descending version.stamp).mpr (.inl rfl)
      exact .inl ⟨u, hu, (congrArg Prod.fst hstamp).trans hts.symm⟩
    · rw [Function.update_of_ne hts] at hwritten
      rcases h.covered ts value hwritten with ⟨v, hv, rfl⟩ | ⟨v, hv, hlt, hle⟩
      · exact .inl (exists_insert_of_mem version hv)
      · obtain ⟨u, hu, hts⟩ := exists_insert_of_mem version hv
        exact .inr ⟨u, hu, hts ▸ hlt, hts ▸ hle⟩

theorem garbageCollect (oldestSnapshot : ℕ) :
    Implements (chain.garbageCollect oldestSnapshot) written (max watermark oldestSnapshot) where
  tiled := h.tiled.garbageCollect oldestSnapshot
  written_of_mem v hv := h.written_of_mem v ((VersionChain.mem_garbageCollect h.tiled).mp hv).1
  covered ts value hwritten := by
    -- the newest version that covers `ts` is one that the collector keeps
    have hkept : ∀ {v : VersionedValue} {s : ℕ}, v ∈ chain.versions → oldestSnapshot ≤ s →
        v.beginTs ≤ s → ∃ u ∈ (chain.garbageCollect oldestSnapshot).versions,
          v.beginTs ≤ u.beginTs ∧ u.beginTs ≤ s := by
      intro v s hv hws hvs
      have hkeep : ∀ b ∈ {u | u ∈ chain.versions},
          (∀ c ∈ {u | u ∈ chain.versions}, b.beginTs < c.beginTs → oldestSnapshot < c.beginTs) →
            b ∈ {u | u ∈ (chain.garbageCollect oldestSnapshot).versions} :=
        fun b hb hnext ↦ (VersionChain.mem_garbageCollect h.tiled).mpr ⟨hb, hnext⟩
      exact exists_kept_ge hws hkeep hv hvs
    rcases h.covered ts value hwritten with ⟨v, hv, rfl⟩ | ⟨v, hv, hlt, hle⟩
    · by_cases hmem : v ∈ (chain.garbageCollect oldestSnapshot).versions
      · exact .inl ⟨v, hmem, rfl⟩
      · rw [VersionChain.mem_garbageCollect h.tiled] at hmem
        push Not at hmem
        obtain ⟨u, hu, hvu, huw⟩ := hmem hv
        obtain ⟨x, hx, hux, hxw⟩ := hkept hu le_rfl huw
        exact .inr ⟨x, hx, hvu.trans_le hux, hxw.trans (le_max_right _ _)⟩
    · obtain ⟨x, hx, hvx, hxw⟩ := hkept hv (le_max_right watermark oldestSnapshot)
        (hle.trans (le_max_left _ _))
      exact .inr ⟨x, hx, hlt.trans_le hvx, hxw⟩

theorem apply {op : ChainOp} (hvalid : op.Valid) :
    Implements (op.apply chain) (op.record written) (op.raise watermark) := by
  cases op with
  | insert version => exact h.insert hvalid.1
  | garbageCollect oldestSnapshot => exact h.garbageCollect oldestSnapshot

end

theorem of_ops {ops : List ChainOp} (hvalid : ∀ op ∈ ops, op.Valid) :
    Implements (ChainOp.chain ops) (ChainOp.written ops) (ChainOp.watermark ops) := by
  induction ops using List.reverseRecOn with
  | nil => exact empty
  | append_singleton ops op ih =>
    have hprev := ih fun o ho ↦ hvalid o (List.mem_append_left [op] ho)
    have hop := hvalid op (List.mem_append_right ops (.head _))
    unfold ChainOp.chain ChainOp.written ChainOp.watermark at hprev ⊢
    rw [List.foldl_concat, List.foldl_concat, List.foldl_concat]
    exact hprev.apply hop

section

variable (h : Implements chain written watermark)

include h

theorem exists_begun {s ts : ℕ} {value : Option Bytes}
    (hs : watermark ≤ s) (hts : ts ≤ s) (hwritten : written ts = some value) :
    ∃ v ∈ chain.versions, ts ≤ v.beginTs ∧ v.beginTs ≤ s := by
  rcases h.covered ts value hwritten with ⟨v, hv, rfl⟩ | ⟨v, hv, hlt, hle⟩
  · exact ⟨v, hv, le_rfl, hts⟩
  · exact ⟨v, hv, hlt.le, hle.trans hs⟩

theorem get_some {s : ℕ} {v : VersionedValue}
    (hs : watermark ≤ s) (hopen : s < openEndedTs) (hget : chain.get s = some v) :
    IsGreatest {ts | ts ≤ s ∧ (written ts).isSome} v.beginTs ∧
      written v.beginTs = some v.value := by
  obtain ⟨hv, hvs, hnewest⟩ := VersionChain.get_isNewestAt h.tiled hopen hget
  have hwritten := h.written_of_mem v hv
  refine ⟨⟨⟨hvs, by rw [hwritten]; rfl⟩, ?_⟩, hwritten⟩
  rintro ts ⟨hts, hsome⟩
  obtain ⟨value, hvalue⟩ := Option.isSome_iff_exists.mp hsome
  obtain ⟨u, hu, htu, hus⟩ := h.exists_begun hs hts hvalue
  exact htu.trans (hnewest u hu hus)

theorem get_none {s : ℕ}
    (hs : watermark ≤ s) (hopen : s < openEndedTs) (hget : chain.get s = none) :
    ∀ ts ≤ s, written ts = none := by
  intro ts hts
  by_contra hne
  obtain ⟨value, hvalue⟩ := Option.ne_none_iff_exists'.mp hne
  obtain ⟨u, hu, -, hus⟩ := h.exists_begun hs hts hvalue
  have hlt := (VersionChain.get_eq_none_iff h.tiled hopen).mp hget u hu
  omega

end

end Implements

/-- However the calls are ordered, the intervals of the chain tile the time up
to the open end, and a snapshot that no collection has passed reads the last
value installed at the greatest timestamp it sees. -/
theorem ChainOp.chain_visibility {ops : List ChainOp} (hvalid : ∀ op ∈ ops, op.Valid) :
    Descending (chain ops).versions ∧ EndsFrom openEndedTs (chain ops).versions ∧
      ∀ s, watermark ops ≤ s → s < openEndedTs → match (chain ops).get s with
        | some v =>
          IsGreatest {ts | ts ≤ s ∧ (written ops ts).isSome} v.beginTs ∧
            written ops v.beginTs = some v.value
        | none => ∀ ts ≤ s, written ops ts = none := by
  have himpl := Implements.of_ops hvalid
  refine ⟨(chain ops).descending, himpl.tiled, fun s hs hopen ↦ ?_⟩
  cases hget : (chain ops).get s with
  | some v => exact himpl.get_some hs hopen hget
  | none => exact himpl.get_none hs hopen hget

/-- Timestamp 5 is installed again after a collection has dropped it, out of
order and with another value. -/
def ChainOp.reinstalled : List ChainOp :=
  [.insert (.live [1] 5 1), .insert (.live [2] 9 2), .garbageCollect 9,
    .insert (.tombstone 5 3), .insert (.live [4] 7 4)]

theorem ChainOp.chain_visibility_reinstalled :
    (∀ op ∈ reinstalled, op.Valid) ∧ ((chain reinstalled).get 9).map (·.value) = some (some [2]) ∧
      IsGreatest {ts | ts ≤ 9 ∧ (written reinstalled ts).isSome} 9 := by
  have hvalid : ∀ op ∈ reinstalled, op.Valid := by
    simp [reinstalled, Valid, VersionedValue.live, VersionedValue.tombstone, openEndedTs,
      maxU64]
  have hget : (chain reinstalled).get 9 = some ⟨some [2], 9, openEndedTs, 2⟩ := by decide
  have hvisible := (chain_visibility hvalid).2.2 9 (by decide) (by decide)
  rw [hget] at hvisible
  exact ⟨hvalid, by rw [hget]; rfl, hvisible.1⟩

end HatP
