import HatP.Lib.Run
import HatP.Memtable

/-!
# Memtable collection beside installing commits

The background worker loads a chain, prunes a copy and stores it back, while
commits install their mutations with read-copy-update.  A store that finds
another chain than the one loaded drops what was installed in between.
-/

namespace HatP

open Transition
open Std (ExtTreeMap)

/-- One call of `apply_mutations_batch`: what it has installed and what is
still to do. -/
structure ApplyCall where
  txId : ℕ
  installed : List Mutation
  remaining : List Mutation

/-- One call of `garbage_collect`: the last key visited, and the chain loaded
for the key at hand. -/
structure GcCall where
  oldestSnapshot : ℕ
  visited : Option Bytes
  loaded : Option (Bytes × VersionChain)

/-- The memtable, the calls that install commits by commit timestamp, the
collection at work and the watermarks of all collections so far. -/
structure SharedMemtable where
  table : MemTable
  calls : ExtTreeMap ℕ ApplyCall
  gc : Option GcCall
  watermarks : List ℕ

namespace SharedMemtable

def initial : SharedMemtable := ⟨∅, ∅, none, []⟩

inductive Action
  | applyStart (txId commitTs : ℕ) (mutations : List Mutation)
  | applyInstall (commitTs : ℕ)
  | gcStart (oldestSnapshot : ℕ)
  | gcLoad (key : Bytes)
  | gcStore
  | gcFinish

def install (st : SharedMemtable) (commitTs : ℕ) (call : ApplyCall) (m : Mutation)
    (rest : List Mutation) : SharedMemtable :=
  { st with
    table := st.table.applyMutation call.txId commitTs m
    calls := st.calls.insert commitTs ⟨call.txId, call.installed ++ [m], rest⟩ }

/-- The store of the pruned copy; a copy of the same length is not stored. -/
def store (st : SharedMemtable) (gc : GcCall) (key : Bytes) (chain : VersionChain) :
    SharedMemtable :=
  { st with
    table := match MemTable.collected gc.oldestSnapshot chain with
      | some new => st.table.insert key new
      | none => st.table
    gc := some { gc with visited := some key, loaded := none } }

def step (st : SharedMemtable) : Action → Option SharedMemtable
  | .applyStart txId commitTs mutations =>
    if commitTs ∈ st.calls then none
    else some { st with calls := st.calls.insert commitTs ⟨txId, [], mutations⟩ }
  | .applyInstall commitTs =>
    st.calls[commitTs]?.bind fun call ↦
      match call.remaining with
      | m :: rest => some (st.install commitTs call m rest)
      | [] => none
  | .gcStart oldestSnapshot =>
    if st.gc.isSome then none
    else some { st with
      gc := some ⟨oldestSnapshot, none, none⟩
      watermarks := oldestSnapshot :: st.watermarks }
  | .gcLoad key =>
    st.gc.bind fun gc ↦
      if gc.loaded.isNone ∧ (∀ last ∈ gc.visited, last < key) ∧ key ∈ st.table then
        some { st with gc := some { gc with loaded := some (key, st.table.chain key) } }
      else none
  | .gcStore =>
    st.gc.bind fun gc ↦ gc.loaded.map fun entry ↦ st.store gc entry.1 entry.2
  | .gcFinish =>
    st.gc.bind fun gc ↦ if gc.loaded.isNone then some { st with gc := none } else none

/-- A version of `key` newer than `commitTs` was installed at or before the
watermark of a collection. -/
def Superseded (st : SharedMemtable) (key : Bytes) (commitTs : ℕ) : Prop :=
  ∃ (ts : ℕ) (call : ApplyCall), st.calls[ts]? = some call ∧
    (netEffect call.installed key).isSome = true ∧ commitTs < ts ∧ ∃ w ∈ st.watermarks, ts ≤ w

/-- What a finished call left for a key is in the chain of the key, or was
superseded at or before the watermark of a collection. -/
def NothingLost (st : SharedMemtable) : Prop :=
  ∀ (ts : ℕ) (call : ApplyCall), st.calls[ts]? = some call → call.remaining = [] →
    ∀ key value, netEffect call.installed key = some value →
      (ts, value) ∈ stamps (st.table.chain key).versions ∨ st.Superseded key ts

/-- A pruned chain is stored only over the chain it was computed from. -/
def StoresCurrent (st : SharedMemtable) : Action → Prop
  | .gcStore => ∀ gc ∈ st.gc, ∀ entry ∈ gc.loaded,
      MemTable.collected gc.oldestSnapshot entry.2 ≠ none → st.table.chain entry.1 = entry.2
  | _ => True

/-- Chains are tiled and hold what the calls installed; what they installed is
there or superseded. -/
structure Inv (st : SharedMemtable) : Prop where
  tiled : st.table.Tiled
  origin : ∀ key, ∀ p ∈ stamps (st.table.chain key).versions, ∃ call : ApplyCall,
    st.calls[p.1]? = some call ∧ netEffect call.installed key = some p.2
  kept : ∀ (ts : ℕ) (call : ApplyCall), st.calls[ts]? = some call →
    ∀ key value, netEffect call.installed key = some value →
      (ts, value) ∈ stamps (st.table.chain key).versions ∨ st.Superseded key ts
  running : ∀ gc ∈ st.gc, gc.oldestSnapshot ∈ st.watermarks

variable {st' : SharedMemtable} {key : Bytes} {chain : VersionChain}

theorem inv_initial : initial.Inv where
  tiled := MemTable.tiled_clear ∅
  origin key p hp := by
    rw [initial, MemTable.chain_empty] at hp
    simp [VersionChain.empty] at hp
  kept ts call hcall := by simp [initial] at hcall
  running gc hgc := by simp [initial] at hgc

variable {st : SharedMemtable}

theorem Superseded.mono {ts : ℕ}
    (h : st.Superseded key ts) (hwatermarks : st.watermarks ⊆ st'.watermarks)
    (hcalls : ∀ (ts : ℕ) (call : ApplyCall), st.calls[ts]? = some call →
      (netEffect call.installed key).isSome = true →
        ∃ call' : ApplyCall, st'.calls[ts]? = some call' ∧
          (netEffect call'.installed key).isSome = true) :
    st'.Superseded key ts := by
  obtain ⟨ts', call, hcall, hsome, hlt, w, hw, hle⟩ := h
  obtain ⟨call', hcall', hsome'⟩ := hcalls ts' call hcall hsome
  exact ⟨ts', call', hcall', hsome', hlt, w, hwatermarks hw, hle⟩

/-! ## Steps -/

theorem Inv.applyStart (h : st.Inv) (txId : ℕ) {commitTs : ℕ} (mutations : List Mutation)
    (hnew : commitTs ∉ st.calls) :
    ({ st with calls := st.calls.insert commitTs ⟨txId, [], mutations⟩ } : SharedMemtable).Inv := by
  have hkeep : ∀ (ts : ℕ) (call : ApplyCall), st.calls[ts]? = some call →
      (st.calls.insert commitTs ⟨txId, [], mutations⟩)[ts]? = some call := by
    intro ts call hcall
    have hne : commitTs ≠ ts := by
      rintro rfl
      exact hnew (ExtTreeMap.mem_iff_isSome_getElem?.mpr (by simp [hcall]))
    rw [ExtTreeMap.getElem?_insert, if_neg (by simpa using hne)]
    exact hcall
  refine ⟨h.tiled, fun key p hp ↦ ?_, fun ts call hcall key value hvalue ↦ ?_, h.running⟩
  · obtain ⟨call, hcall, hvalue⟩ := h.origin key p hp
    exact ⟨call, hkeep p.1 call hcall, hvalue⟩
  · rw [ExtTreeMap.getElem?_insert] at hcall
    split_ifs at hcall with hts
    · obtain rfl := Option.some.inj hcall
      simp at hvalue
    · rcases h.kept ts call hcall key value hvalue with hmem | hsup
      · exact Or.inl hmem
      · exact Or.inr (hsup.mono (List.Subset.refl _) fun ts' call' hcall' hsome ↦
          ⟨call', hkeep ts' call' hcall', hsome⟩)

theorem Inv.install (h : st.Inv) {commitTs : ℕ} {call : ApplyCall} {m : Mutation}
    {rest : List Mutation} (hcall : st.calls[commitTs]? = some call) :
    (st.install commitTs call m rest).Inv := by
  have hget : ∀ ts : ℕ, (st.install commitTs call m rest).calls[ts]? =
      if commitTs = ts then some ⟨call.txId, call.installed ++ [m], rest⟩ else st.calls[ts]? := by
    intro ts
    rw [SharedMemtable.install, ExtTreeMap.getElem?_insert]
    simp
  have hmem : ∀ key p, p ∈ stamps ((st.install commitTs call m rest).table.chain key).versions ↔
      (m.key = key ∧ p = (commitTs, m.value)) ∨
        ((m.key = key → p.1 ≠ commitTs) ∧ p ∈ stamps (st.table.chain key).versions) :=
    fun key p ↦ MemTable.mem_stamps_applyMutation
  have hsup : ∀ key ts, st.Superseded key ts →
      (st.install commitTs call m rest).Superseded key ts := by
    intro key ts hold
    refine hold.mono (List.Subset.refl _) fun ts' call' hcall' hsome ↦ ?_
    rw [hget]
    split_ifs with hts
    · subst hts
      obtain rfl := Option.some.inj (hcall.symm.trans hcall')
      refine ⟨_, rfl, ?_⟩
      rw [netEffect_concat]
      split_ifs
      · rfl
      · exact hsome
    · exact ⟨call', hcall', hsome⟩
  refine ⟨h.tiled.applyMutation _ _ m, fun key p hp ↦ ?_, fun ts other hother key value hvalue ↦ ?_,
    h.running⟩
  · rw [hget]
    rcases (hmem key p).mp hp with ⟨hkey, rfl⟩ | ⟨hne, hp⟩
    · exact ⟨_, if_pos rfl, by simp [hkey]⟩
    · obtain ⟨other, hother, hvalue⟩ := h.origin key p hp
      by_cases hts : commitTs = p.1
      · have hkey : m.key ≠ key := fun hkey ↦ hne hkey hts.symm
        obtain rfl : call = other := by
          rw [hts] at hcall
          exact Option.some.inj (hcall.symm.trans hother)
        exact ⟨_, if_pos hts, by simp [hkey, hvalue]⟩
      · exact ⟨other, (if_neg hts).trans hother, hvalue⟩
  · rw [hget] at hother
    rw [hmem]
    split_ifs at hother with hts
    · subst hts
      obtain rfl := Option.some.inj hother
      rw [netEffect_concat] at hvalue
      split_ifs at hvalue with hkey
      · obtain rfl := Option.some.inj hvalue
        exact Or.inl (Or.inl ⟨hkey, rfl⟩)
      · rcases h.kept commitTs call hcall key value hvalue with hold | hold
        · exact Or.inl (Or.inr ⟨fun hkey' ↦ absurd hkey' hkey, hold⟩)
        · exact Or.inr (hsup key commitTs hold)
    · rcases h.kept ts other hother key value hvalue with hold | hold
      · exact Or.inl (Or.inr ⟨fun _ ↦ Ne.symm hts, hold⟩)
      · exact Or.inr (hsup key ts hold)

theorem chain_store {gc : GcCall}
    (hcurrent : MemTable.collected gc.oldestSnapshot chain ≠ none → st.table.chain key = chain)
    (key' : Bytes) :
    (st.store gc key chain).table.chain key' = st.table.chain key' ∨
      (st.store gc key chain).table.chain key' =
        (st.table.chain key').garbageCollect gc.oldestSnapshot := by
  unfold store
  cases hcollected : MemTable.collected gc.oldestSnapshot chain with
  | none => exact Or.inl rfl
  | some new =>
    have hchain := hcurrent (by simp [hcollected])
    have hnew : new = chain.garbageCollect gc.oldestSnapshot := by
      unfold MemTable.collected at hcollected
      dsimp only at hcollected
      split_ifs at hcollected
      exact (Option.some.inj hcollected).symm
    by_cases hkey : key = key'
    · subst hkey
      right
      simp [MemTable.chain, hnew, ← hchain]
    · left
      simp [MemTable.chain, ExtTreeMap.getElem?_insert, hkey]

theorem Inv.store (h : st.Inv) {gc : GcCall} (hgc : st.gc = some gc)
    (hcurrent : MemTable.collected gc.oldestSnapshot chain ≠ none → st.table.chain key = chain) :
    (st.store gc key chain).Inv := by
  have hrunning : gc.oldestSnapshot ∈ st.watermarks := h.running gc hgc
  have hchain := chain_store hcurrent
  have hsub : ∀ key', ∀ p ∈ stamps ((st.store gc key chain).table.chain key').versions,
      p ∈ stamps (st.table.chain key').versions := by
    rintro key' p ⟨v, hv, rfl⟩
    rcases hchain key' with heq | heq <;> rw [heq] at hv
    · exact ⟨v, hv, rfl⟩
    · exact ⟨v, ((VersionChain.mem_garbageCollect (h.tiled key')).mp hv).1, rfl⟩
  refine ⟨fun key' ↦ ?_, fun key' p hp ↦ h.origin key' p (hsub key' p hp),
    fun ts call hcall key' value hvalue ↦ ?_, fun gc' hgc' ↦ ?_⟩
  · rcases hchain key' with heq | heq <;> rw [heq]
    · exact h.tiled key'
    · exact (h.tiled key').garbageCollect _
  · rcases h.kept ts call hcall key' value hvalue with ⟨v, hv, hstamp⟩ | hsup
    · rcases hchain key' with heq | heq <;> rw [heq]
      · exact Or.inl ⟨v, hv, hstamp⟩
      · by_cases hkeep : ∀ u ∈ (st.table.chain key').versions, v.beginTs < u.beginTs →
            gc.oldestSnapshot < u.beginTs
        · exact Or.inl ⟨v, (VersionChain.mem_garbageCollect (h.tiled key')).mpr ⟨hv, hkeep⟩, hstamp⟩
        · push Not at hkeep
          obtain ⟨u, hu, hlt, hle⟩ := hkeep
          obtain ⟨other, hother, hvalue'⟩ := h.origin key' u.stamp ⟨u, hu, rfl⟩
          have hts : v.beginTs = ts := congrArg Prod.fst hstamp
          refine Or.inr ⟨u.beginTs, other, hother, ?_, hts ▸ hlt, _, hrunning, hle⟩
          rw [hvalue']
          rfl
    · exact Or.inr hsup
  · obtain rfl := Option.some.inj hgc'
    exact hrunning

theorem Inv.step (h : st.Inv) {action : Action}
    (hcurrent : st.StoresCurrent action) (hstep : st.step action = some st') : st'.Inv := by
  cases action with
  | applyStart txId commitTs mutations =>
    simp only [SharedMemtable.step] at hstep
    split_ifs at hstep with hmem
    exact Option.some.inj hstep ▸ h.applyStart txId mutations hmem
  | applyInstall commitTs =>
    obtain ⟨call, hcall, hinstall⟩ := Option.bind_eq_some_iff.mp hstep
    cases hremaining : call.remaining with
    | nil => simp [hremaining] at hinstall
    | cons m rest =>
      rw [hremaining] at hinstall
      exact Option.some.inj hinstall ▸ h.install hcall
  | gcStart oldestSnapshot =>
    simp only [SharedMemtable.step] at hstep
    split_ifs at hstep
    obtain rfl := Option.some.inj hstep
    refine ⟨h.tiled, h.origin, fun ts call hcall key value hvalue ↦ ?_, fun gc hgc ↦ ?_⟩
    · refine (h.kept ts call hcall key value hvalue).imp_right fun hsup ↦ ?_
      exact hsup.mono (List.subset_cons_self _ _)
        fun _ call' hcall' hsome ↦ ⟨call', hcall', hsome⟩
    · obtain rfl := Option.some.inj hgc
      exact .head _
  | gcLoad key =>
    obtain ⟨gc, hgc, hload⟩ := Option.bind_eq_some_iff.mp hstep
    split_ifs at hload
    obtain rfl := Option.some.inj hload
    refine ⟨h.tiled, h.origin, h.kept, fun gc' hgc' ↦ ?_⟩
    obtain rfl := Option.some.inj hgc'
    exact h.running gc hgc
  | gcStore =>
    obtain ⟨gc, hgc, hstore⟩ := Option.bind_eq_some_iff.mp hstep
    obtain ⟨entry, hloaded, rfl⟩ := Option.map_eq_some_iff.mp hstore
    exact h.store hgc (hcurrent gc hgc entry hloaded)
  | gcFinish =>
    obtain ⟨gc, hgc, hfinish⟩ := Option.bind_eq_some_iff.mp hstep
    split_ifs at hfinish
    obtain rfl := Option.some.inj hfinish
    exact ⟨h.tiled, h.origin, h.kept, fun gc' hgc' ↦ by simp at hgc'⟩

/-! ## Runs -/

/-- No interleaving in which every store finds the chain it was computed from
loses a version. -/
theorem nothingLost_along (actions : List Action)
    (hcurrent : StepsMeet step StoresCurrent initial actions) :
    Along step NothingLost initial actions := by
  apply StepsMeet.along _ _ inv_initial hcurrent
  · exact fun st action st' hinv hmeets hstep ↦ hinv.step hmeets hstep
  · exact fun st hinv ts call hcall _ ↦ hinv.kept ts call hcall

/-- Two versions of a key, then a collection between whose load and store a
third commit installs `later`. -/
def collectBeside (later : Mutation) : List Action :=
  [.applyStart 1 1 [.put [107] [1]], .applyInstall 1, .applyStart 2 2 [.put [107] [2]],
    .applyInstall 2, .gcStart 2, .gcLoad [107], .applyStart 3 3 [later], .applyInstall 3,
    .gcStore, .gcFinish]

theorem nothingLost_along_otherKey :
    StepsMeet step StoresCurrent initial (collectBeside (.put [108] [3])) ∧
      Along step NothingLost initial (collectBeside (.put [108] [3])) := by
  have hcurrent : StepsMeet step StoresCurrent initial (collectBeside (.put [108] [3])) := by
    iterate 8
      rintro _ ⟨⟩
      refine ⟨trivial, ?_⟩
    rintro _ ⟨⟩
    refine ⟨?_, ?_⟩
    · rintro _ ⟨⟩ _ ⟨⟩ _
      decide
    rintro _ ⟨⟩
    exact ⟨trivial, trivial⟩
  exact ⟨hcurrent, nothingLost_along _ hcurrent⟩

/-- The store drops the version that was installed after the load. -/
theorem store_drops_concurrent_version :
    ∃ st, run step initial (collectBeside (.put [107] [3])) = some st ∧
      st.gc.isNone ∧ st.calls[3]?.map ApplyCall.remaining = some [] ∧ st.watermarks = [2] ∧
      (st.table.chain [107]).versions.map VersionedValue.stamp = [(2, some [2])] ∧
      ¬st.NothingLost := by
  have hlost : ∀ st : SharedMemtable, st.calls[3]? = some ⟨3, [.put [107] [3]], []⟩ →
      st.watermarks = [2] →
      (st.table.chain [107]).versions.map VersionedValue.stamp = [(2, some [2])] →
      ¬st.NothingLost := by
    intro st hcall hwatermarks hversions h
    rcases h 3 _ hcall rfl [107] (some [3]) rfl with ⟨v, hv, hstamp⟩ | hsup
    · have hmem := List.mem_map_of_mem (f := VersionedValue.stamp) hv
      rw [hversions, hstamp] at hmem
      exact absurd hmem (by decide)
    · obtain ⟨ts, call, -, -, hlt, w, hw, hle⟩ := hsup
      obtain rfl : w = 2 := by simpa [hwatermarks] using hw
      omega
  exact ⟨_, rfl, by decide, by decide, by decide, by decide, hlost _ rfl (by decide) (by decide)⟩

end SharedMemtable

end HatP
