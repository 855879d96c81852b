import HatP.CompactionReads
import HatP.Lib.Refcount

/-!
# Pinned snapshots

Readers hold guards, background work holds watermarks computed at some earlier
time.  Every watermark ever computed stays at or below every snapshot that
`begin_read` handed out and that is still held, so collecting the memtable or
compacting with it keeps what those readers see.
-/

namespace HatP

open Transition

namespace Engine

def VisibleVersion (e : Engine) (key : Bytes) (s : ℕ) (p : ℕ × Option Bytes) : Prop :=
  Newest.IsNewestAt Prod.fst (e.heldStamps key) s p

def collectMemtable (e : Engine) (watermark : ℕ) : Engine :=
  { e with memtable := e.memtable.garbageCollect watermark }

end Engine

/-- A live guard.  For a guard of `begin_read`, `created` is the engine at that
call; a guard of `pin_snapshot` has none. -/
structure SnapshotGuard where
  ts : ℕ
  created : Option Engine

/-- The engine, the live guards and the watermarks computed so far. -/
structure PinState where
  engine : Engine
  guards : List SnapshotGuard
  watermarks : List ℕ

namespace PinState

inductive Action
  | beginRead
  | pinSnapshot (ts : ℕ)
  | dropGuard (index : ℕ)
  | commit (txId : ℕ) (mutations : List Mutation)
  | flush (env : SstEnv)
  | watermark
  | collectMemtable (watermark : ℕ)
  | compact (sourceLevel targetLevel watermark : ℕ) (env : SstEnv)
  | subCompact (sourceLevel targetLevel watermark : ℕ) (env : ℕ → SstEnv)

def step (st : PinState) : Action → Option PinState
  | .beginRead =>
    some { st with
      engine := st.engine.beginRead.2
      guards := ⟨st.engine.beginRead.1, some st.engine⟩ :: st.guards }
  | .pinSnapshot ts =>
    some { st with engine := st.engine.pinSnapshot ts, guards := ⟨ts, none⟩ :: st.guards }
  | .dropGuard index =>
    st.guards[index]?.map fun guard ↦
      { st with
        engine := st.engine.unpinSnapshot guard.ts
        guards := st.guards.eraseIdx index }
  | .commit txId mutations => some { st with engine := st.engine.exec (.write txId mutations) }
  | .flush env => some { st with engine := st.engine.flush env }
  | .watermark => some { st with watermarks := st.engine.watermark :: st.watermarks }
  | .collectMemtable w =>
    if w ∈ st.watermarks then some { st with engine := st.engine.collectMemtable w } else none
  | .compact sourceLevel targetLevel w env =>
    if w ∈ st.watermarks then
      some { st with engine := st.engine.compactWithWatermark sourceLevel targetLevel w env }
    else none
  | .subCompact sourceLevel targetLevel w env =>
    if w ∈ st.watermarks then
      some { st with engine := st.engine.subCompact sourceLevel targetLevel w env }
    else none

/-- What a held `begin_read` guard saw at its creation is still in the memtable
or in a live file. -/
def Protected (st : PinState) : Prop :=
  ∀ guard ∈ st.guards, ∀ created, guard.created = some created →
    ∀ key p, created.VisibleVersion key guard.ts p → p ∈ st.engine.heldStamps key

end PinState

/-! ## Background work and visible versions -/

namespace Engine

variable {e : Engine}

/-- `e'` holds what `e` holds, up to versions with a successor begun at or
before the watermark. -/
structure Prunes (e e' : Engine) (w : ℕ) : Prop where
  subset : ∀ key, e'.heldStamps key ⊆ e.heldStamps key
  keep : ∀ key, ∀ p ∈ e.heldStamps key, (∀ q ∈ e.heldStamps key, p.1 < q.1 → w < q.1) →
    p ∈ e'.heldStamps key

section

variable (h : e.Inv)

include h

theorem stamps_collectMemtable_subset (watermark : ℕ) (key : Bytes) :
    stamps ((e.collectMemtable watermark).memtable.chain key).versions ⊆
      stamps (e.memtable.chain key).versions := by
  rintro p ⟨v, hv, rfl⟩
  rw [collectMemtable, MemTable.chain_garbageCollect] at hv
  exact ⟨v, ((VersionChain.mem_garbageCollect (h.memtable_tiled key)).mp hv).1, rfl⟩

theorem prunes_collectMemtable (w : ℕ) : e.Prunes (e.collectMemtable w) w := by
  have hchain : ∀ key, (e.collectMemtable w).memtable.chain key =
      (e.memtable.chain key).garbageCollect w :=
    fun key ↦ e.memtable.chain_garbageCollect w key
  refine ⟨fun key p hp ↦ ?_, fun key p hp hkeep ↦ ?_⟩
  · rcases hp with hp | hp
    · exact Or.inl (stamps_collectMemtable_subset h w key hp)
    · exact Or.inr hp
  · rcases hp with ⟨v, hv, rfl⟩ | hp
    · refine Or.inl ?_
      rw [hchain]
      refine ⟨v, (VersionChain.mem_garbageCollect (h.memtable_tiled key)).mpr ⟨hv, ?_⟩, rfl⟩
      exact fun u hu hlt ↦ hkeep u.stamp (Or.inl ⟨u, hu, rfl⟩) hlt
    · exact Or.inr hp

theorem prunes_compactChunks {src tgt : ℕ} {chunks : List (List ℕ)}
    (hsplit : e.Splits src tgt chunks) (w : ℕ) (env : ℕ → SstEnv) :
    e.Prunes (e.merged src tgt w chunks env) w := by
  refine ⟨heldStamps_compactChunks_subset h.versionSet hsplit, fun key p hp hkeep ↦ ?_⟩
  rcases hp with hp | hp
  · exact Or.inl hp
  · exact Or.inr (stamp_kept_compactChunks h.versionSet hsplit h.copies hp
      fun q hq ↦ hkeep q (Or.inr hq))

theorem Inv.collectMemtable (w : ℕ) : (e.collectMemtable w).Inv where
  versionSet := h.versionSet
  memtable_tiled := h.memtable_tiled.garbageCollect w
  sorted := h.sorted
  tiled := h.tiled
  retired := h.retired
  metadata := h.metadata
  begun key p hp := h.begun key p ((prunes_collectMemtable h w).subset key hp)
  unique key p hp q hq :=
    h.unique key p ((prunes_collectMemtable h w).subset key hp) q
      ((prunes_collectMemtable h w).subset key hq)

theorem Inv.setPins (pins : Std.ExtTreeMap ℕ ℕ) :
    ({ e with pinnedSnapshots := pins } : Engine).Inv :=
  ⟨h.versionSet, h.memtable_tiled, h.sorted, h.tiled, h.retired, h.metadata, h.begun, h.unique⟩

theorem VisibleVersion.committed {key : Bytes} {s : ℕ}
    {p : ℕ × Option Bytes} (hs : s < e.commitSeq) (hp : e.VisibleVersion key s p) (txId : ℕ)
    (ms : List Mutation) : (e.committed txId ms).VisibleVersion key s p := by
  refine (Newest.isNewestAt_congr fun q hq ↦ ?_).mp hp
  rw [mem_heldStamps_committed h]
  refine ⟨Or.inr, fun hmem ↦ hmem.resolve_left fun hnew ↦ ?_⟩
  omega

end

theorem watermark_le_of_pinned {ts : ℕ} (h : ts ∈ e.pinnedSnapshots) : e.watermark ≤ ts := by
  have hsorted : e.pinnedSnapshots.keys.Pairwise (· < ·) :=
    (Std.ExtTreeMap.ordered_keys (t := e.pinnedSnapshots)).imp fun h ↦ Nat.compare_eq_lt.mp h
  have hmem : ts ∈ e.pinnedSnapshots.keys := Std.ExtTreeMap.mem_keys.mpr h
  unfold watermark
  apply (min_le_left _ _).trans
  cases hkeys : e.pinnedSnapshots.keys with
  | nil => simp [hkeys] at hmem
  | cons first rest =>
    rw [hkeys] at hmem hsorted
    rcases List.mem_cons.mp hmem with rfl | hrest
    · exact le_rfl
    · exact ((List.pairwise_cons.mp hsorted).1 ts hrest).le

end Engine

/-! ## The invariant -/

namespace PinState

variable {e : Engine} {st : PinState} {w : ℕ}

/-- The pin counts are those of the live guards; every computed watermark is
committed and at or below each `begin_read` snapshot held; what those guards
saw is still what a reader at their snapshot sees. -/
structure Safe (st : PinState) : Prop where
  inv : st.engine.Inv
  started : 0 < st.engine.commitSeq
  pins : Refcount.Represents st.engine.pinnedSnapshots (st.guards.map SnapshotGuard.ts)
  computed : ∀ w ∈ st.watermarks, w ≤ st.engine.snapshotTs
  below : ∀ w ∈ st.watermarks, ∀ guard ∈ st.guards, guard.created.isSome → w ≤ guard.ts
  taken : ∀ guard ∈ st.guards, guard.created.isSome → guard.ts ≤ st.engine.snapshotTs
  seen : ∀ guard ∈ st.guards, ∀ created, guard.created = some created →
    ∀ key p, created.VisibleVersion key guard.ts p → st.engine.VisibleVersion key guard.ts p

section

variable (h : st.Safe)

include h

theorem Safe.protected : st.Protected :=
  fun guard hguard created hcreated key p hp ↦ (h.seen guard hguard created hcreated key p hp).1

theorem Safe.setEngine (hinv : e.Inv) (hseq : st.engine.commitSeq ≤ e.commitSeq)
    (hpins : e.pinnedSnapshots = st.engine.pinnedSnapshots)
    (hseen : ∀ guard ∈ st.guards, guard.created.isSome → ∀ key p,
      st.engine.VisibleVersion key guard.ts p → e.VisibleVersion key guard.ts p) :
    ({ st with engine := e } : PinState).Safe := by
  have hsnapshot : st.engine.snapshotTs ≤ e.snapshotTs := Nat.sub_le_sub_right hseq 1
  refine ⟨hinv, h.started.trans_le hseq, hpins ▸ h.pins, fun w hw ↦ ?_, h.below,
    fun guard hguard hcreated ↦ ?_, fun guard hguard created hcreated key p hp ↦ ?_⟩
  · exact (h.computed w hw).trans hsnapshot
  · exact (h.taken guard hguard hcreated).trans hsnapshot
  · apply hseen guard hguard (by simp [hcreated])
    exact h.seen guard hguard created hcreated key p hp

theorem Safe.prune (hw : w ∈ st.watermarks)
    (hinv : e.Inv) (hseq : e.commitSeq = st.engine.commitSeq)
    (hpins : e.pinnedSnapshots = st.engine.pinnedSnapshots) (hprune : st.engine.Prunes e w) :
    ({ st with engine := e } : PinState).Safe := by
  apply h.setEngine hinv hseq.ge hpins
  intro guard hguard hcreated key p hp
  exact Newest.isNewestAt_prune (h.below w hw guard hguard hcreated) (hprune.subset key)
    (hprune.keep key) hp

/-- A guard of `begin_read` is made at the current snapshot. -/
theorem Safe.addGuard (guard : SnapshotGuard) (hcreated : ∀ created, guard.created = some created →
      created = st.engine ∧ guard.ts = st.engine.snapshotTs) :
    ({ st with
      engine := st.engine.pinSnapshot guard.ts
      guards := guard :: st.guards } : PinState).Safe where
  inv := h.inv.setPins _
  started := h.started
  pins := h.pins.acquire guard.ts
  computed := h.computed
  below w hw := by
    refine List.forall_mem_cons.mpr ⟨fun hsome ↦ ?_, h.below w hw⟩
    obtain ⟨created, heq⟩ := Option.isSome_iff_exists.mp hsome
    exact (h.computed w hw).trans (hcreated created heq).2.ge
  taken := by
    refine List.forall_mem_cons.mpr ⟨fun hsome ↦ ?_, h.taken⟩
    obtain ⟨created, heq⟩ := Option.isSome_iff_exists.mp hsome
    exact (hcreated created heq).2.le
  seen := by
    refine List.forall_mem_cons.mpr ⟨fun created heq key p hp ↦ ?_, h.seen⟩
    obtain ⟨rfl, -⟩ := hcreated created heq
    exact hp

theorem Safe.dropGuard {index : ℕ} {guard : SnapshotGuard}
    (hguard : st.guards[index]? = some guard) :
    ({ st with
      engine := st.engine.unpinSnapshot guard.ts
      guards := st.guards.eraseIdx index } : PinState).Safe := by
  have hmem : ∀ other ∈ st.guards.eraseIdx index, other ∈ st.guards :=
    fun other ↦ (List.eraseIdx_sublist st.guards index).mem
  obtain ⟨hlt, rfl⟩ := List.getElem?_eq_some_iff.mp hguard
  have hperm : (st.guards.map SnapshotGuard.ts).Perm
      (st.guards[index].ts :: (st.guards.eraseIdx index).map SnapshotGuard.ts) :=
    ((List.getElem_cons_eraseIdx_perm hlt).map SnapshotGuard.ts).symm
  exact
    { inv := h.inv.setPins _
      started := h.started
      pins := h.pins.release hperm
      computed := h.computed
      below := fun w hw other hother ↦ h.below w hw other (hmem other hother)
      taken := fun other hother ↦ h.taken other (hmem other hother)
      seen := fun other hother ↦ h.seen other (hmem other hother) }

theorem Safe.watermark :
    ({ st with watermarks := st.engine.watermark :: st.watermarks } : PinState).Safe := by
  refine { h with computed := fun w hw ↦ ?_, below := fun w hw guard hguard hcreated ↦ ?_ }
  · rcases List.mem_cons.mp hw with rfl | hw
    · exact min_le_right _ _
    · exact h.computed w hw
  · rcases List.mem_cons.mp hw with rfl | hw
    · apply Engine.watermark_le_of_pinned
      exact h.pins.mem_iff.mpr (List.mem_map_of_mem hguard)
    · exact h.below w hw guard hguard hcreated

theorem Safe.commit (txId : ℕ) (ms : List Mutation) :
    ({ st with engine := st.engine.exec (.write txId ms) } : PinState).Safe := by
  rcases st.engine.exec_write txId ms with heq | heq <;> rw [heq]
  · exact h
  · apply h.setEngine h.inv.committed (Nat.le_succ _) rfl
    intro guard hguard hcreated key p hp
    have htaken := h.taken guard hguard hcreated
    have hlt : guard.ts < st.engine.commitSeq := by
      have hstarted := h.started
      unfold Engine.snapshotTs at htaken
      omega
    exact hp.committed h.inv hlt txId ms

theorem Safe.flush (env : SstEnv) :
    ({ st with engine := st.engine.flush env } : PinState).Safe := by
  by_cases hne : st.engine.memtable.drainInto = []
  · rw [Engine.flush_of_nil hne]
    exact h
  · apply h.setEngine (h.inv.flush env) (Engine.commitSeq_flush hne).ge
    · simp [Engine.flush, Engine.flushSstLocked, hne]
    · intro guard _ _ key p hp
      unfold Engine.VisibleVersion
      rwa [Engine.heldStamps_flush h.inv.versionSet]

theorem Safe.compacts (hw : w ∈ st.watermarks) {e : Engine} {src tgt : ℕ}
    (hc : st.engine.Compacts src tgt w e) : ({ st with engine := e } : PinState).Safe := by
  rcases hc.eq_or_chunks with rfl | ⟨chunks, env, hsplit, rfl⟩
  · exact h
  · exact h.prune hw (h.inv.compactChunks hsplit) rfl rfl
      (Engine.prunes_compactChunks h.inv hsplit w env)

theorem Safe.step {st' : PinState} {action : Action}
    (hstep : st.step action = some st') : st'.Safe := by
  cases action with
  | beginRead =>
    cases hstep
    refine h.addGuard ⟨_, some st.engine⟩ ?_
    rintro _ ⟨⟩
    exact ⟨rfl, rfl⟩
  | pinSnapshot ts =>
    cases hstep
    exact h.addGuard ⟨ts, none⟩ fun _ heq ↦ by cases heq
  | dropGuard index =>
    obtain ⟨guard, hguard, rfl⟩ := Option.map_eq_some_iff.mp hstep
    exact h.dropGuard hguard
  | commit txId ms => exact Option.some.inj hstep ▸ h.commit txId ms
  | flush env => exact Option.some.inj hstep ▸ h.flush env
  | watermark => exact Option.some.inj hstep ▸ h.watermark
  | collectMemtable w =>
    simp only [PinState.step] at hstep
    split_ifs at hstep with hw
    exact Option.some.inj hstep ▸
      h.prune hw (h.inv.collectMemtable w) rfl rfl (Engine.prunes_collectMemtable h.inv w)
  | compact src tgt w env =>
    simp only [PinState.step] at hstep
    split_ifs at hstep with hw
    exact Option.some.inj hstep ▸ h.compacts hw (.compact env)
  | subCompact src tgt w env =>
    simp only [PinState.step] at hstep
    split_ifs at hstep with hw
    exact Option.some.inj hstep ▸ h.compacts hw (.subCompact env)

end

/-! ## Runs -/

theorem safe_start (hinv : e.Inv) (hstarted : 0 < e.commitSeq)
    (hpins : e.pinnedSnapshots = ∅) : Safe ⟨e, [], []⟩ where
  inv := hinv
  started := hstarted
  pins := hpins ▸ Refcount.represents_empty
  computed := by simp
  below := by simp
  taken := by simp
  seen := by simp

/-- From any reachable engine without pins, whatever the readers, commits and
background tasks do, held `begin_read` guards keep what they saw. -/
theorem protected_along {e : Engine} (hinv : e.Inv) (hstarted : 0 < e.commitSeq)
    (hpins : e.pinnedSnapshots = ∅) (actions : List Action) :
    Along step Protected ⟨e, [], []⟩ actions :=
  StepsMeet.along (fun _ _ _ h _ ↦ h.step) (fun _ h ↦ h.protected)
    (safe_start hinv hstarted hpins) (stepsMeet_true _ actions)

/-- A guard at 1 is held over a later commit of the key and a collection with a
watermark computed while it was held. -/
def heldOverCollection : List Action :=
  [.commit 1 [.put [107] [1]], .beginRead, .commit 2 [.put [107] [2]], .watermark,
    .collectMemtable 1]

theorem protected_along_heldOverCollection :
    Along step Protected ⟨Engine.initial, [], []⟩ heldOverCollection ∧
      ∃ st, run step ⟨Engine.initial, [], []⟩ heldOverCollection = some st ∧
        st.guards.map SnapshotGuard.ts = [1] ∧ st.watermarks = [1] ∧
        (1, some [1]) ∈ st.engine.heldStamps [107] := by
  refine ⟨protected_along Engine.inv_initial Nat.one_pos rfl heldOverCollection, ?_⟩
  refine ⟨_, rfl, by decide, by decide, Or.inl ⟨⟨some [1], 1, 2, 1⟩, by decide, rfl⟩⟩

/-! ## The watermark over a run -/

/-- No snapshot is pinned below a watermark that was computed. -/
def PinsAbove (st : PinState) : Action → Prop
  | .pinSnapshot ts => ∀ w ∈ st.watermarks, w ≤ ts
  | _ => True

section

variable (h : st.Safe)

include h

theorem Safe.le_watermark (hsnapshot : st.engine.snapshotTs ≤ openEndedTs)
    (hw : w ∈ st.watermarks) (hbelow : ∀ guard ∈ st.guards, w ≤ guard.ts) :
    w ≤ st.engine.watermark := by
  refine le_min ?_ (h.computed w hw)
  cases hkeys : st.engine.pinnedSnapshots.keys with
  | nil => exact (h.computed w hw).trans hsnapshot
  | cons ts rest =>
    have hpinned : ts ∈ st.engine.pinnedSnapshots :=
      Std.ExtTreeMap.mem_keys.mp (hkeys ▸ List.mem_cons_self)
    obtain ⟨guard, hguard, rfl⟩ := List.mem_map.mp (h.pins.mem_iff.mp hpinned)
    exact hbelow guard hguard

theorem Safe.below_step {st' : PinState} {action : Action} (hpin : st.PinsAbove action)
    (hstep : st.step action = some st')
    (hbelow : ∀ w ∈ st.watermarks, ∀ guard ∈ st.guards, w ≤ guard.ts) :
    ∀ w ∈ st'.watermarks, ∀ guard ∈ st'.guards, w ≤ guard.ts := by
  cases action with
  | beginRead =>
    cases hstep
    exact fun w hw ↦ List.forall_mem_cons.mpr ⟨h.computed w hw, hbelow w hw⟩
  | pinSnapshot ts =>
    cases hstep
    exact fun w hw ↦ List.forall_mem_cons.mpr ⟨hpin w hw, hbelow w hw⟩
  | dropGuard index =>
    obtain ⟨guard, -, rfl⟩ := Option.map_eq_some_iff.mp hstep
    exact fun w hw other hother ↦
      hbelow w hw other ((List.eraseIdx_sublist st.guards index).mem hother)
  | watermark =>
    cases hstep
    refine List.forall_mem_cons.mpr ⟨fun guard hguard ↦ ?_, hbelow⟩
    exact Engine.watermark_le_of_pinned (h.pins.mem_iff.mpr (List.mem_map_of_mem hguard))
  | commit txId ms | flush env =>
    cases hstep
    exact hbelow
  | collectMemtable w | compact src tgt w env | subCompact src tgt w env =>
    obtain ⟨-, ⟨⟩⟩ := Option.ite_none_right_eq_some.mp hstep
    exact hbelow

end

/-- What may be collected grows: no watermark is below one computed before. -/
theorem watermark_monotone_along {e : Engine} (hinv : e.Inv) (hstarted : 0 < e.commitSeq)
    (hpins : e.pinnedSnapshots = ∅) {actions : List Action}
    (hmeet : StepsMeet step PinsAbove ⟨e, [], []⟩ actions) :
    Along step (fun st ↦ st.engine.snapshotTs ≤ openEndedTs →
      ∀ w ∈ st.watermarks, w ≤ st.engine.watermark) ⟨e, [], []⟩ actions :=
  hmeet.along (I := fun st ↦ st.Safe ∧ ∀ w ∈ st.watermarks, ∀ guard ∈ st.guards, w ≤ guard.ts)
    (fun _ _ _ h hpin hstep ↦ ⟨h.1.step hstep, h.1.below_step hpin hstep h.2⟩)
    (fun _ h hsnapshot w hw ↦ h.1.le_watermark hsnapshot hw (h.2 w hw))
    ⟨safe_start hinv hstarted hpins, by simp⟩

theorem watermark_monotone_along_pinned :
    Along step (fun st ↦ st.engine.snapshotTs ≤ openEndedTs →
      ∀ w ∈ st.watermarks, w ≤ st.engine.watermark) ⟨Engine.initial, [], []⟩
      [.commit 1 [.put [107] [1]], .watermark, .pinSnapshot 1, .watermark] := by
  apply watermark_monotone_along Engine.inv_initial Nat.one_pos rfl
  simp [StepsMeet, step, PinsAbove]
  decide

end PinState

end HatP
