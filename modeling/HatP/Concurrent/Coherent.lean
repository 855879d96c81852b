import HatP.Concurrent.Protocol

/-!
# Exact reads while commits install

As long as no flush takes rows away, the memtable holds newer versions than the
live files and a commit that is being installed owns the newest timestamp.  An
exact read then finds the newest version that the engine holds.
-/

namespace HatP

open Newest

namespace Engine

/-- For each key the memtable is newer than the live files. -/
def Layered (e : Engine) : Prop :=
  ∀ key, ∀ p ∈ stamps (e.memtable.chain key).versions, ∀ q ∈ e.liveStamps key, q.1 < p.1

section Read

variable {e : Engine} {key : Bytes} {s : ℕ}

theorem exactRead_isNewestAt (h : e.Inv) (hlayered : e.Layered) (hs : s < openEndedTs)
    {v : VersionedValue} (hread : e.exactRead key s = some v) :
    IsNewestAt Prod.fst (e.heldStamps key) s v.stamp := by
  unfold exactRead at hread
  cases hmem : e.memtable.get key s with
  | some u =>
    rw [hmem] at hread
    obtain rfl : u = v := Option.some.inj hread
    rw [MemTable.get_eq_chain_get] at hmem
    obtain ⟨hu, hus, hmax⟩ := VersionChain.get_isNewestAt (h.memtable_tiled key) hs hmem
    have hstamp : u.stamp ∈ stamps (e.memtable.chain key).versions := ⟨u, hu, rfl⟩
    refine ⟨Or.inl hstamp, hus, fun q hq hqs ↦ ?_⟩
    rcases hq with ⟨x, hx, rfl⟩ | hq
    · exact hmax x hx hqs
    · exact (hlayered key u.stamp hstamp q hq).le
  | none =>
    rw [hmem, Option.none_or] at hread
    rw [MemTable.get_eq_chain_get, VersionChain.get_eq_none_iff (h.memtable_tiled key) hs] at hmem
    obtain ⟨i, hi, hget⟩ := List.mem_filterMap.mp (List.argmax_mem hread)
    have hlive := mem_liveFiles.mp hi
    obtain ⟨u, rfl, hu, hus, -⟩ :=
      sstGet_isNewestAt (h.sorted i hlive) (h.tiled i hlive) hs hget
    refine ⟨Or.inr ⟨u, ⟨i, hlive, hu⟩, rfl⟩, hus, fun q hq hqs ↦ ?_⟩
    rcases hq with ⟨x, hx, rfl⟩ | ⟨x, ⟨j, hj, hx⟩, rfl⟩
    · exact absurd hqs (not_le.mpr (hmem x hx))
    · cases hother : sstGet (e.rowsOf j) key s with
      | none =>
        have hlt := (sstGet_eq_none_iff (h.tiled j hj) hs).mp hother x hx
        exact absurd hqs (not_le.mpr hlt)
      | some y =>
        obtain ⟨z, rfl, -, -, hmax⟩ :=
          sstGet_isNewestAt (h.sorted j hj) (h.tiled j hj) hs hother
        have hmemy : z.stored ∈ e.liveFiles.filterMap fun i ↦ sstGet (e.rowsOf i) key s :=
          List.mem_filterMap.mpr ⟨j, mem_liveFiles.mpr hj, hother⟩
        have hle : z.stored.beginTs ≤ u.stored.beginTs := List.le_of_mem_argmax hmemy hread
        exact (hmax x hx hqs).trans hle

theorem lt_of_exactRead_eq_none (h : e.Inv) (hs : s < openEndedTs)
    (hread : e.exactRead key s = none) : ∀ p ∈ e.heldStamps key, s < p.1 := by
  obtain ⟨hmem, hfiles⟩ := Option.or_eq_none_iff.mp hread
  rw [MemTable.get_eq_chain_get, VersionChain.get_eq_none_iff (h.memtable_tiled key) hs] at hmem
  rintro p (⟨v, hv, rfl⟩ | ⟨v, ⟨i, hi, hv⟩, rfl⟩)
  · exact hmem v hv
  · have hnone := List.filterMap_eq_nil_iff.mp (List.argmax_eq_none.mp hfiles) i
      (mem_liveFiles.mpr hi)
    exact (sstGet_eq_none_iff (h.tiled i hi) hs).mp hnone v hv

end Read

/-! ## Installing one mutation -/

section Install

variable {e : Engine} {txId ts : ℕ} {m : Mutation}

def installed (e : Engine) (txId ts : ℕ) (m : Mutation) : Engine :=
  { e with memtable := e.memtable.applyMutation txId ts m }

theorem mem_heldStamps_installed (hlive : ∀ key, ∀ q ∈ e.liveStamps key, q.1 ≠ ts) {key : Bytes}
    {p : ℕ × Option Bytes} :
    p ∈ (e.installed txId ts m).heldStamps key ↔
      (m.key = key ∧ p = (ts, m.value)) ∨ ((m.key = key → p.1 ≠ ts) ∧ p ∈ e.heldStamps key) := by
  have hstep : p ∈ (e.installed txId ts m).heldStamps key ↔
      p ∈ stamps ((e.memtable.applyMutation txId ts m).chain key).versions ∨
        p ∈ e.liveStamps key := Iff.rfl
  rw [hstep, MemTable.mem_stamps_applyMutation]
  constructor
  · rintro ((hnew | ⟨hne, hold⟩) | hold)
    · exact Or.inl hnew
    · exact Or.inr ⟨hne, Or.inl hold⟩
    · exact Or.inr ⟨fun _ ↦ hlive key p hold, Or.inr hold⟩
  · rintro (hnew | ⟨hne, hold | hold⟩)
    · exact Or.inl (Or.inl hnew)
    · exact Or.inl (Or.inr ⟨hne, hold⟩)
    · exact Or.inr hold

theorem Inv.installed (h : e.Inv) (hts : ts < e.commitSeq)
    (hlive : ∀ key, ∀ q ∈ e.liveStamps key, q.1 ≠ ts) : (e.installed txId ts m).Inv where
  versionSet := h.versionSet
  memtable_tiled := h.memtable_tiled.applyMutation txId ts m
  sorted := h.sorted
  tiled := h.tiled
  retired := h.retired
  metadata := h.metadata
  begun key p hp := by
    rcases (mem_heldStamps_installed hlive).mp hp with ⟨-, rfl⟩ | ⟨-, hold⟩
    · exact hts
    · exact h.begun key p hold
  unique key p hp q hq hpq := by
    rcases (mem_heldStamps_installed hlive).mp hp with ⟨hkey, rfl⟩ | ⟨hpne, hp⟩ <;>
      rcases (mem_heldStamps_installed hlive).mp hq with ⟨hkey', rfl⟩ | ⟨hqne, hq⟩
    · rfl
    · exact absurd hpq.symm (hqne hkey)
    · exact absurd hpq (hpne hkey')
    · exact h.unique key p hp q hq hpq

theorem Layered.installed (h : e.Layered) (hlive : ∀ key, ∀ q ∈ e.liveStamps key, q.1 < ts) :
    (e.installed txId ts m).Layered := by
  intro key p hp q hq
  rcases MemTable.mem_stamps_applyMutation.mp hp with ⟨-, rfl⟩ | ⟨-, hold⟩
  · exact hlive key q hq
  · exact h key p hold q hq

end Install

end Engine

namespace SharedEngine

variable {queue : List PendingWrite}

/-! ## Coherent states -/

/-- The commit at work owns the newest timestamp, no live file has it, and the
memtable holds under it what has been installed so far. -/
structure InFlight (st : SharedEngine) (commit : Commit) (todo : List Mutation) : Prop where
  newest : commit.commitTs + 1 = st.engine.commitSeq
  fresh : ∀ key, ∀ q ∈ st.engine.liveStamps key, q.1 < commit.commitTs
  partly : ∃ done, commit.mutations = done ++ todo ∧ ∀ key value,
    (commit.commitTs, value) ∈ st.engine.heldStamps key ↔ netEffect done key = some value

/-- No flush is at work and the engine is as sequential commits leave it, up to
the commit being installed. -/
structure Coherent (st : SharedEngine) : Prop where
  inv : st.engine.Inv
  layered : st.engine.Layered
  started : 0 < st.engine.commitSeq
  drained : st.drained = []
  flusher : st.flusher = none
  inFlight : ∀ commit todo queue, st.writer = some (.installing commit todo queue) →
    st.InFlight commit todo

def Idle (st : SharedEngine) : Prop :=
  ∀ commit todo queue, st.writer ≠ some (.installing commit todo queue)

variable {st st' : SharedEngine}

section

variable (h : st.Coherent) {todo : List Mutation}

include h

theorem Coherent.of_idle (hengine : st'.engine = st.engine)
    (hdrained : st'.drained = st.drained) (hflusher : st'.flusher = st.flusher)
    (hidle : st'.Idle) : st'.Coherent where
  inv := hengine ▸ h.inv
  layered := hengine ▸ h.layered
  started := hengine ▸ h.started
  drained := hdrained ▸ h.drained
  flusher := hflusher ▸ h.flusher
  inFlight commit todo queue hwriter := absurd hwriter (hidle commit todo queue)

theorem Coherent.takeTimestamp {w : PendingWrite} : (st.takeTimestamp w queue).Coherent where
  inv := { h.inv with begun := fun key p hp ↦ (h.inv.begun key p hp).trans (Nat.lt_succ_self _) }
  layered := h.layered
  started := Nat.succ_pos _
  drained := h.drained
  flusher := h.flusher
  inFlight commit todo queue' hwriter := by
    obtain ⟨rfl, rfl, rfl⟩ := Writer.installing.inj (Option.some.inj hwriter)
    refine ⟨rfl, fun key q hq ↦ h.inv.begun key q (Or.inr hq), [], rfl, fun key value ↦ ?_⟩
    rw [netEffect_nil]
    refine iff_of_false (fun hmem ↦ ?_) (by simp)
    exact absurd (h.inv.begun key _ hmem) (lt_irrefl _)

theorem Coherent.mem_heldStamps_install {commit : Commit} {m : Mutation}
    (hwriter : st.writer = some (.installing commit (m :: todo) queue)) {key : Bytes}
    {p : ℕ × Option Bytes} :
    p ∈ (st.install commit m todo queue).engine.heldStamps key ↔
      (m.key = key ∧ p = (commit.commitTs, m.value)) ∨
        ((m.key = key → p.1 ≠ commit.commitTs) ∧ p ∈ st.engine.heldStamps key) :=
  Engine.mem_heldStamps_installed fun key q hq ↦
    ((h.inFlight commit (m :: todo) queue hwriter).fresh key q hq).ne

theorem Coherent.install {commit : Commit} {m : Mutation}
    (hwriter : st.writer = some (.installing commit (m :: todo) queue)) :
    (st.install commit m todo queue).Coherent := by
  have hflight := h.inFlight commit (m :: todo) queue hwriter
  have hlive : ∀ key, ∀ q ∈ st.engine.liveStamps key, q.1 ≠ commit.commitTs :=
    fun key q hq ↦ (hflight.fresh key q hq).ne
  have hts : commit.commitTs < st.engine.commitSeq := by
    have hnewest := hflight.newest
    omega
  refine
    { inv := h.inv.installed hts hlive
      layered := h.layered.installed hflight.fresh
      started := h.started
      drained := h.drained
      flusher := h.flusher
      inFlight := fun commit' todo' queue' hwriter' ↦ ?_ }
  obtain ⟨rfl, rfl, rfl⟩ := Writer.installing.inj (Option.some.inj hwriter')
  obtain ⟨done, hdone, hpartly⟩ := hflight.partly
  refine ⟨hflight.newest, hflight.fresh, done ++ [m], by simp [hdone], fun key value ↦ ?_⟩
  rw [h.mem_heldStamps_install hwriter, netEffect_concat, hpartly]
  by_cases hkey : m.key = key
  · simp [hkey, eq_comm]
  · simp [hkey]

theorem Coherent.setPins {pins : Std.ExtTreeMap ℕ ℕ} {readers : List Reader} :
    ({ st with
      engine := { st.engine with pinnedSnapshots := pins }
      readers := readers } : SharedEngine).Coherent where
  inv := ⟨h.inv.versionSet, h.inv.memtable_tiled, h.inv.sorted, h.inv.tiled, h.inv.retired,
    h.inv.metadata, h.inv.begun, h.inv.unique⟩
  layered := h.layered
  started := h.started
  drained := h.drained
  flusher := h.flusher
  inFlight commit todo queue hwriter := by
    have hflight := h.inFlight commit todo queue hwriter
    exact ⟨hflight.newest, hflight.fresh, hflight.partly⟩

theorem Coherent.steps {action : Action} (hstep : st.Steps action st')
    (hdrain : action = .drain → st.engine.memtable.drainInto = []) : st'.Coherent := by
  cases hstep with
  | lockWrite hwriter hbatch | unlockWrite hwriter => exact h.of_idle rfl rfl rfl (by simp [Idle])
  | appendWal hwriter => exact h.of_idle rfl rfl rfl (by simp [Idle, SharedEngine.appendWal])
  | takeTimestamp hwriter => exact h.takeTimestamp
  | install hwriter => exact h.install hwriter
  | acknowledge hwriter => exact h.of_idle rfl rfl rfl (by simp [Idle, SharedEngine.acknowledge])
  | drain hwriter => rwa [drain_of_empty (hdrain rfl)]
  | lockCompaction hflusher hrows => simp [h.drained] at hrows
  | writeSst hflusher | appendManifest hflusher | clearMemtable hflusher | checkWalSize hflusher
  | resetWal hflusher => simp [h.flusher] at hflusher
  | beginRead | read hreader | dropReader hreader => exact h.setPins

end

/-- An engine that no call is working on. -/
structure Settled (st : SharedEngine) : Prop where
  inv : st.engine.Inv
  layered : st.engine.Layered
  started : 0 < st.engine.commitSeq
  writer : st.writer = none
  drained : st.drained = []
  flusher : st.flusher = none

theorem Settled.coherent {st : SharedEngine} (h : st.Settled) : st.Coherent where
  inv := h.inv
  layered := h.layered
  started := h.started
  drained := h.drained
  flusher := h.flusher
  inFlight commit todo queue hwriter := by simp [h.writer] at hwriter

theorem settled_initial (walMaxSizeBytes : ℕ) : (initial walMaxSizeBytes).Settled where
  inv := Engine.inv_initial
  layered key p hp := by
    change p ∈ stamps ((∅ : MemTable).chain key).versions at hp
    rw [MemTable.chain_empty] at hp
    simp [VersionChain.empty] at hp
  started := Nat.one_pos
  writer := rfl
  drained := rfl
  flusher := rfl

end SharedEngine

end HatP
