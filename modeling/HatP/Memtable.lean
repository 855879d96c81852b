import HatP.Version

/-!
# The memtable

An ordered map from keys to version chains.  A commit installs one version per
mutation under its commit timestamp; a flush drains every version in key order.
-/

namespace HatP

structure VersionedRow where
  key : Bytes
  version : VersionedValue
deriving DecidableEq

inductive Mutation
  | put (key value : Bytes)
  | delete (key : Bytes)
deriving DecidableEq

namespace Mutation

def key : Mutation → Bytes
  | put key _ => key
  | delete key => key

def value : Mutation → Option Bytes
  | put _ value => some value
  | delete _ => none

def version (txId commitTs : ℕ) : Mutation → VersionedValue
  | put _ value => .live value commitTs txId
  | delete _ => .tombstone commitTs txId

@[simp] theorem version_beginTs (txId commitTs : ℕ) (m : Mutation) :
    (m.version txId commitTs).beginTs = commitTs := by
  cases m <;> rfl

@[simp] theorem version_endTs (txId commitTs : ℕ) (m : Mutation) :
    (m.version txId commitTs).endTs = openEndedTs := by
  cases m <;> rfl

@[simp] theorem version_stamp (txId commitTs : ℕ) (m : Mutation) :
    (m.version txId commitTs).stamp = (commitTs, m.value) := by
  cases m <;> rfl

end Mutation

/-- What a commit leaves for `key`: the value of its last mutation of `key`, or
`none` when it does not touch `key`. -/
def netEffect (mutations : List Mutation) (key : Bytes) : Option (Option Bytes) :=
  mutations.foldl (fun last m ↦ if m.key = key then some m.value else last) none

@[simp] theorem netEffect_nil (key : Bytes) : netEffect [] key = none := rfl

@[simp] theorem netEffect_concat (mutations : List Mutation) (m : Mutation) (key : Bytes) :
    netEffect (mutations ++ [m]) key =
      if m.key = key then some m.value else netEffect mutations key := by
  simp [netEffect]

variable {mutations : List Mutation}

theorem netEffect_append (first second : List Mutation) (key : Bytes) :
    netEffect (first ++ second) key = (netEffect second key).or (netEffect first key) := by
  induction second using List.reverseRecOn with
  | nil => simp
  | append_singleton second m ih =>
    rw [← List.append_assoc, netEffect_concat, netEffect_concat, ih]
    split_ifs
    · rfl
    · rfl

theorem exists_netEffect {key : Bytes} {m : Mutation}
    (hm : m ∈ mutations) (hkey : m.key = key) : ∃ value, netEffect mutations key = some value := by
  induction mutations using List.reverseRecOn with
  | nil => simp at hm
  | append_singleton mutations last ih =>
    rw [netEffect_concat]
    split_ifs with hlast
    · exact ⟨last.value, rfl⟩
    · apply ih
      rcases List.mem_append.mp hm with hm | hm
      · exact hm
      · obtain rfl := List.mem_singleton.mp hm
        exact absurd hkey hlast

theorem mem_of_netEffect {key : Bytes} {value : Option Bytes}
    (h : netEffect mutations key = some value) :
    ∃ m ∈ mutations, m.key = key ∧ m.value = value := by
  induction mutations using List.reverseRecOn with
  | nil => cases h
  | append_singleton mutations last ih =>
    rw [netEffect_concat] at h
    split at h
    next hkey =>
      exact ⟨last, List.mem_append_right _ (.head _), hkey, Option.some.inj h⟩
    next =>
      obtain ⟨m, hm, hmkey, hmvalue⟩ := ih h
      exact ⟨m, List.mem_append_left _ hm, hmkey, hmvalue⟩

abbrev MemTable := Std.ExtTreeMap Bytes VersionChain

namespace MemTable

variable {table : MemTable}

def chain (table : MemTable) (key : Bytes) : VersionChain :=
  table[key]?.getD .empty

/-- One iteration of `apply_mutations_batch`: `get_or_insert` the entry, then
`rcu` the new version into its chain. -/
def applyMutation (table : MemTable) (txId commitTs : ℕ) (mutation : Mutation) : MemTable :=
  table.alter mutation.key fun entry ↦
    some ((entry.getD .empty).insert (mutation.version txId commitTs))

def applyMutationsBatch (table : MemTable) (txId : ℕ) (mutations : List Mutation)
    (commitTs : ℕ) : MemTable :=
  mutations.foldl (fun table m ↦ table.applyMutation txId commitTs m) table

def get (table : MemTable) (key : Bytes) (snapshot : ℕ) : Option VersionedValue :=
  table[key]?.bind (·.get snapshot)

def drainInto (table : MemTable) : List VersionedRow :=
  table.toList.flatMap fun entry ↦ entry.2.versions.map (VersionedRow.mk entry.1)

def collected (oldestSnapshot : ℕ) (current : VersionChain) : Option VersionChain :=
  let new := current.garbageCollect oldestSnapshot
  if current.versions.length ≠ new.versions.length then some new else none

def garbageCollect (table : MemTable) (oldestSnapshot : ℕ) : MemTable :=
  table.map fun _ current ↦ (collected oldestSnapshot current).getD current

def clear (_ : MemTable) : MemTable := ∅

def Tiled (table : MemTable) : Prop :=
  ∀ key, (table.chain key).Tiled

/-! ## Lookups -/

theorem chain_empty (key : Bytes) : (∅ : MemTable).chain key = .empty := by
  simp [chain]

@[simp] theorem chain_clear (table : MemTable) (key : Bytes) : table.clear.chain key = .empty :=
  chain_empty key

theorem get_eq_chain_get (table : MemTable) (key : Bytes) (s : ℕ) :
    table.get key s = (table.chain key).get s := by
  unfold get chain
  cases table[key]? with
  | none | some c => rfl

theorem chain_applyMutation (table : MemTable) (txId commitTs : ℕ) (m : Mutation) (key : Bytes) :
    (table.applyMutation txId commitTs m).chain key =
      if m.key = key then (table.chain key).insert (m.version txId commitTs)
      else table.chain key := by
  unfold chain applyMutation
  rw [Std.ExtTreeMap.getElem?_alter]
  by_cases h : m.key = key
  · subst h
    simp
  · simp [h]

theorem garbageCollect_eq_of_length {c : VersionChain} {w : ℕ}
    (h : c.versions.length = (c.garbageCollect w).versions.length) :
    c.garbageCollect w = c := by
  unfold VersionChain.garbageCollect at h ⊢
  split at h
  · rfl
  · exact VersionChain.ext (List.filter_sublist.eq_of_length h.symm)

theorem getD_collected (w : ℕ) (c : VersionChain) :
    (collected w c).getD c = c.garbageCollect w := by
  unfold collected
  by_cases h : c.versions.length = (c.garbageCollect w).versions.length
  · simp [h, garbageCollect_eq_of_length h]
  · simp [h]

@[simp] theorem chain_garbageCollect (table : MemTable) (w : ℕ) (key : Bytes) :
    (table.garbageCollect w).chain key = (table.chain key).garbageCollect w := by
  unfold chain garbageCollect
  rw [Std.ExtTreeMap.getElem?_map]
  cases table[key]? with
  | none => rfl
  | some c => exact getD_collected w c

/-- Collections with any watermarks leave what one with the largest leaves. -/
theorem foldl_garbageCollect (table : MemTable) (w : ℕ) (ws : List ℕ) :
    (w :: ws).foldl garbageCollect table = table.garbageCollect (ws.foldl max w) := by
  induction ws generalizing w with
  | nil => rfl
  | cons w' ws ih =>
    refine Eq.trans ?_ (ih (max w w'))
    rw [List.foldl_cons, List.foldl_cons, List.foldl_cons]
    congr 1
    refine Std.ExtTreeMap.ext_getElem? fun key ↦ ?_
    simp only [garbageCollect, Std.ExtTreeMap.getElem?_map, getD_collected, Option.map_map,
      Function.comp_def, VersionChain.garbageCollect_garbageCollect]

/-! ## Installing a commit -/

theorem Tiled.applyMutation (h : table.Tiled) (txId commitTs : ℕ)
    (m : Mutation) : (table.applyMutation txId commitTs m).Tiled := by
  intro key
  rw [chain_applyMutation]
  split_ifs with hk
  · exact (h key).insert (m.version_endTs txId commitTs)
  · exact h key

theorem Tiled.applyMutationsBatch (h : table.Tiled) (txId commitTs : ℕ)
    (ms : List Mutation) : (table.applyMutationsBatch txId ms commitTs).Tiled := by
  induction ms generalizing table with
  | nil => exact h
  | cons m ms ih => exact ih (h.applyMutation txId commitTs m)

theorem mem_stamps_applyMutation {txId ts : ℕ} {m : Mutation} {key : Bytes} {p : ℕ × Option Bytes} :
    p ∈ stamps ((table.applyMutation txId ts m).chain key).versions ↔
      (m.key = key ∧ p = (ts, m.value)) ∨
        ((m.key = key → p.1 ≠ ts) ∧ p ∈ stamps (table.chain key).versions) := by
  rw [chain_applyMutation]
  by_cases hkey : m.key = key
  · rw [if_pos hkey, VersionChain.insert, stamps_insertVersion (VersionChain.descending _)]
    simp [hkey, eq_comm]
  · simp [hkey]

/-- After a commit a key holds what the commit left for it under the commit's
timestamp, and all its versions with other timestamps. -/
theorem mem_stamps_applyMutationsBatch (table : MemTable) (txId commitTs : ℕ)
    (ms : List Mutation) (key : Bytes) (p : ℕ × Option Bytes) :
    p ∈ stamps ((table.applyMutationsBatch txId ms commitTs).chain key).versions ↔
      (p.1 = commitTs ∧ netEffect ms key = some p.2) ∨
        ((p.1 = commitTs → netEffect ms key = none) ∧ p ∈ stamps (table.chain key).versions) := by
  induction ms using List.reverseRecOn with
  | nil => simp [applyMutationsBatch]
  | append_singleton ms m ih =>
    have happly : table.applyMutationsBatch txId (ms ++ [m]) commitTs =
        (table.applyMutationsBatch txId ms commitTs).applyMutation txId commitTs m := by
      simp [applyMutationsBatch]
    rw [happly, mem_stamps_applyMutation, netEffect_concat, ih]
    obtain ⟨ts, v⟩ := p
    by_cases hkey : m.key = key
    · by_cases hts : ts = commitTs <;> simp [hkey, hts, eq_comm]
    · simp [hkey]

theorem tiled_clear (table : MemTable) : table.clear.Tiled :=
  fun _ ↦ chain_clear table _ ▸ VersionChain.tiled_empty

theorem Tiled.garbageCollect (h : table.Tiled) (w : ℕ) : (table.garbageCollect w).Tiled := by
  intro key
  rw [chain_garbageCollect]
  exact (h key).garbageCollect w

end MemTable

end HatP
