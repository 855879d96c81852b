import HatP.Tables.RangeScan
import HatP.Tx.CommitOnce

/-!
# Reads through the write buffer

A transaction reads its own writes.  A point read walks the buffer backwards
and stops at the first mutation of its key; a range scan folds the buffer
forwards into what the engine returned.  Over an engine whose two reads agree,
the two reads of the transaction agree.
-/

namespace HatP

/-- `get_at`; the pin that it holds meanwhile has no part in the answer. -/
def Database.getAt (db : Database) (key : Bytes) (snapshotTs : ℕ) : Option Bytes :=
  (db.engine.get key snapshotTs).1

def upsert (key value : Bytes) : List (Bytes × Bytes) → List (Bytes × Bytes)
  | [] => [(key, value)]
  | entry :: kvs =>
    if entry.1 = key then (entry.1, value) :: kvs else entry :: upsert key value kvs

def InBounds (lower upper key : Bytes) : Prop := lower ≤ key ∧ key < upper

instance (lower upper key : Bytes) : Decidable (InBounds lower upper key) :=
  inferInstanceAs (Decidable (_ ∧ _))

def foldMutation (lower upper : Bytes) (kvs : List (Bytes × Bytes)) :
    Mutation → List (Bytes × Bytes)
  | .put key value => if InBounds lower upper key then upsert key value kvs else kvs
  | .delete key =>
    if InBounds lower upper key then kvs.filter fun entry ↦ entry.1 ≠ key else kvs

def KeyLe (left right : Bytes × Bytes) : Prop := left.1 ≤ right.1

instance : DecidableRel KeyLe := fun _ _ ↦ inferInstanceAs (Decidable (_ ≤ _))

instance : IsTrans (Bytes × Bytes) KeyLe := ⟨fun _ _ _ ↦ le_trans⟩

instance : Std.Total KeyLe := ⟨fun left right ↦ le_total left.1 right.1⟩

namespace Transaction

def buffered (t : Transaction) (key : Bytes) : Option (Option Bytes) :=
  t.mutations.reverse.findSome? fun m ↦ if m.key = key then some m.value else none

def getAnswer (t : Transaction) (db : Database) (key : Bytes) : Option Bytes :=
  match t.buffered key with
  | some value => value
  | none => db.getAt key t.snapshotTs

def scanRangeAnswer (t : Transaction) (db : Database) (lower upper : Bytes) :
    List (Bytes × Bytes) :=
  (t.mutations.foldl (foldMutation lower upper)
    (db.engine.scanRange lower upper t.snapshotTs)).insertionSort KeyLe

end Transaction

/-! ## One mutation -/

section Fold

variable {key value : Bytes} {kvs : List (Bytes × Bytes)} {entry : Bytes × Bytes}

theorem fst_mem_upsert (h : entry ∈ upsert key value kvs) :
    entry.1 = key ∨ entry.1 ∈ kvs.map Prod.fst := by
  induction kvs with
  | nil =>
    obtain rfl := List.mem_singleton.mp h
    exact .inl rfl
  | cons first kvs ih =>
    rw [upsert] at h
    split at h
    next hkey =>
      rcases List.mem_cons.mp h with rfl | hrest
      · exact .inl hkey
      · exact .inr (.tail _ (List.mem_map_of_mem hrest))
    next =>
      rcases List.mem_cons.mp h with rfl | hrest
      · exact .inr (.head _)
      · exact (ih hrest).imp_right (List.mem_cons_of_mem _)

theorem nodup_upsert (h : (kvs.map Prod.fst).Nodup) :
    ((upsert key value kvs).map Prod.fst).Nodup := by
  induction kvs with
  | nil => exact List.nodup_singleton key
  | cons first kvs ih =>
    rw [List.map_cons, List.nodup_cons] at h
    rw [upsert]
    split
    next => exact List.nodup_cons.mpr h
    next hkey =>
      refine List.nodup_cons.mpr ⟨fun hmem ↦ ?_, ih h.2⟩
      obtain ⟨entry, hentry, heq⟩ := List.mem_map.mp hmem
      rcases fst_mem_upsert hentry with hnew | hold
      · exact hkey (heq.symm.trans hnew)
      · exact h.1 (heq ▸ hold)

theorem mem_upsert (h : (kvs.map Prod.fst).Nodup) :
    entry ∈ upsert key value kvs ↔ entry = (key, value) ∨ entry.1 ≠ key ∧ entry ∈ kvs := by
  induction kvs with
  | nil => simp [upsert]
  | cons first kvs ih =>
    rw [List.map_cons, List.nodup_cons] at h
    rw [upsert]
    split
    next hkey =>
      have hother : entry ∈ kvs → entry.1 ≠ key := fun hmem heq ↦
        h.1 (hkey.trans heq.symm ▸ List.mem_map_of_mem hmem)
      rw [List.mem_cons, List.mem_cons, hkey]
      constructor
      · rintro (hnew | hmem)
        · exact .inl hnew
        · exact .inr ⟨hother hmem, .inr hmem⟩
      · rintro (hnew | ⟨hne, rfl | hmem⟩)
        · exact .inl hnew
        · exact absurd hkey hne
        · exact .inr hmem
    next hkey =>
      rw [List.mem_cons, List.mem_cons, ih h.2]
      constructor
      · rintro (rfl | hnew | ⟨hne, hmem⟩)
        · exact .inr ⟨hkey, .inl rfl⟩
        · exact .inl hnew
        · exact .inr ⟨hne, .inr hmem⟩
      · rintro (hnew | ⟨hne, rfl | hmem⟩)
        · exact .inr (.inl hnew)
        · exact .inl rfl
        · exact .inr (.inr ⟨hne, hmem⟩)

variable {lower upper : Bytes}

theorem nodup_foldMutation (m : Mutation) (h : (kvs.map Prod.fst).Nodup) :
    ((foldMutation lower upper kvs m).map Prod.fst).Nodup := by
  cases m with
  | put key value =>
    rw [foldMutation]
    split
    · exact nodup_upsert h
    · exact h
  | delete key =>
    rw [foldMutation]
    split
    · exact h.sublist (List.filter_sublist.map Prod.fst)
    · exact h

theorem mem_foldMutation (m : Mutation) (h : (kvs.map Prod.fst).Nodup) :
    entry ∈ foldMutation lower upper kvs m ↔
      if m.key = entry.1 ∧ InBounds lower upper entry.1 then m.value = some entry.2
      else entry ∈ kvs := by
  obtain ⟨k, v⟩ := entry
  cases m with
  | put key value =>
    simp only [foldMutation, Mutation.key, Mutation.value]
    by_cases hkey : key = k
    · subst hkey
      by_cases hin : InBounds lower upper key
      · simp [hin, mem_upsert h, eq_comm]
      · simp [hin]
    · by_cases hin : InBounds lower upper key
      · simp [hin, hkey, mem_upsert h, Ne.symm hkey]
      · simp [hin, hkey]
  | delete key =>
    simp only [foldMutation, Mutation.key, Mutation.value]
    by_cases hkey : key = k
    · subst hkey
      by_cases hin : InBounds lower upper key
      · simp [hin]
      · simp [hin]
    · by_cases hin : InBounds lower upper key
      · simp [hin, hkey, Ne.symm hkey]
      · simp [hin, hkey]

/-! ## The whole buffer -/

theorem nodup_foldl_foldMutation (ms : List Mutation) (h : (kvs.map Prod.fst).Nodup) :
    ((ms.foldl (foldMutation lower upper) kvs).map Prod.fst).Nodup := by
  induction ms generalizing kvs with
  | nil => exact h
  | cons m ms ih => exact ih (nodup_foldMutation m h)

/-- Inside the bounds the net effect of the buffer decides, and where it has
none the pairs of the engine stay. -/
theorem mem_foldl_foldMutation (ms : List Mutation) (h : (kvs.map Prod.fst).Nodup)
    (hin : InBounds lower upper entry.1) :
    entry ∈ ms.foldl (foldMutation lower upper) kvs ↔ match netEffect ms entry.1 with
      | some value => value = some entry.2
      | none => entry ∈ kvs := by
  induction ms using List.reverseRecOn with
  | nil => rfl
  | append_singleton ms m ih =>
    rw [List.foldl_concat, mem_foldMutation m (nodup_foldl_foldMutation ms h), netEffect_concat]
    by_cases hkey : m.key = entry.1
    · rw [if_pos ⟨hkey, hin⟩, if_pos hkey]
    · rw [if_neg fun hboth ↦ hkey hboth.1, if_neg hkey]
      exact ih

theorem mem_foldl_of_not_inBounds (ms : List Mutation) (h : (kvs.map Prod.fst).Nodup)
    (hout : ¬InBounds lower upper entry.1) :
    entry ∈ ms.foldl (foldMutation lower upper) kvs ↔ entry ∈ kvs := by
  induction ms generalizing kvs with
  | nil => rfl
  | cons m ms ih =>
    rw [List.foldl_cons, ih (nodup_foldMutation m h), mem_foldMutation m h,
      if_neg fun hboth ↦ hout hboth.2]

end Fold

namespace Transaction

theorem buffered_eq (t : Transaction) (key : Bytes) :
    t.buffered key = netEffect t.mutations key := by
  unfold buffered
  induction t.mutations using List.reverseRecOn with
  | nil => rfl
  | append_singleton ms m ih =>
    rw [List.reverse_concat, List.findSome?_cons, netEffect_concat, ih]
    by_cases hkey : m.key = key
    · rw [if_pos hkey, if_pos hkey]
    · rw [if_neg hkey, if_neg hkey]

section Agreement

variable {t : Transaction} {db : Database} {lower upper : Bytes}

theorem nodup_scanRange : ((db.engine.scanRange lower upper t.snapshotTs).map Prod.fst).Nodup :=
  (Engine.scanRange_pairwise db.engine lower upper t.snapshotTs).imp fun hlt ↦ hlt.ne

theorem pairwise_scanRangeAnswer :
    ((t.scanRangeAnswer db lower upper).map Prod.fst).Pairwise (· < ·) := by
  have hsorted := List.pairwise_insertionSort KeyLe (t.mutations.foldl (foldMutation lower upper)
    (db.engine.scanRange lower upper t.snapshotTs))
  have hkeys : ((t.scanRangeAnswer db lower upper).map Prod.fst).Nodup :=
    ((List.perm_insertionSort KeyLe _).map Prod.fst).nodup_iff.mpr
      (nodup_foldl_foldMutation t.mutations nodup_scanRange)
  have hdistinct := List.pairwise_map.mp hkeys
  exact List.pairwise_map.mpr (hsorted.imp₂ (fun _ _ hle hne ↦ lt_of_le_of_ne hle hne) hdistinct)

/-- A range scan returns exactly the pairs that point reads return for the keys
inside the bounds, sorted by key. -/
theorem scanRange_agrees_get
    (hengine : ∀ key value, (key, value) ∈ db.engine.scanRange lower upper t.snapshotTs ↔
      (lower ≤ key ∧ key < upper) ∧ (db.engine.get key t.snapshotTs).1 = some value) :
    ((t.scanRangeAnswer db lower upper).map Prod.fst).Pairwise (· < ·) ∧
      ∀ key value, (key, value) ∈ t.scanRangeAnswer db lower upper ↔
        (lower ≤ key ∧ key < upper) ∧ t.getAnswer db key = some value := by
  refine ⟨pairwise_scanRangeAnswer, fun key value ↦ ?_⟩
  rw [scanRangeAnswer, List.mem_insertionSort, getAnswer, buffered_eq]
  by_cases hin : InBounds lower upper key
  · rw [mem_foldl_foldMutation t.mutations nodup_scanRange hin]
    cases netEffect t.mutations key with
    | some buffered => exact ⟨fun h ↦ ⟨hin, h⟩, fun h ↦ h.2⟩
    | none => exact hengine key value
  · rw [mem_foldl_of_not_inBounds t.mutations nodup_scanRange hin]
    constructor
    · intro h
      exact absurd ((hengine key value).mp h).1 hin
    · intro h
      exact absurd h.1 hin

end Agreement

end Transaction

/-! ## A buffer over a committed row -/

def oneRow : Database :=
  { Database.initial with
    engine := { Engine.initial with
      memtable := Engine.initial.memtable.applyMutationsBatch 1 [.put [5] [50]] 1
      commitSeq := 2 } }

theorem get_oneRow_of_ne {key : Bytes} (h : key ≠ [5]) (snapshot : ℕ) :
    (oneRow.engine.get key snapshot).1 = none := by
  have hmemtable : oneRow.engine.memtable.get key snapshot = none := by
    have hother : (Mutation.put [5] [50]).key ≠ key := Ne.symm h
    change (MemTable.applyMutation ∅ 1 1 (.put [5] [50])).get key snapshot = none
    rw [MemTable.get_eq_chain_get, MemTable.chain_applyMutation, if_neg hother,
      MemTable.chain_empty]
    rfl
  have hdropped : oneRow.engine.isDroppedPrefix key = false := rfl
  rw [Engine.get, hdropped, hmemtable]
  rfl

theorem oneRow_agrees (key value : Bytes) :
    (key, value) ∈ oneRow.engine.scanRange [4] [9] 1 ↔
      ([4] ≤ key ∧ key < [9]) ∧ (oneRow.engine.get key 1).1 = some value := by
  have hscan : oneRow.engine.scanRange [4] [9] 1 = [([5], [50])] := by decide
  have hget : (oneRow.engine.get [5] 1).1 = some [50] := by decide
  rw [hscan, List.mem_singleton, Prod.mk.injEq]
  by_cases hkey : key = [5]
  · subst hkey
    rw [hget, Option.some.injEq]
    exact ⟨fun h ↦ ⟨by decide, h.2.symm⟩, fun h ↦ ⟨rfl, h.2.symm⟩⟩
  · rw [get_oneRow_of_ne hkey]
    simp [hkey]

def rewriting : Transaction where
  snapshotTs := 1
  mutations := [.delete [5], .put [7] [1], .put [5] [51], .put [7] [2], .put [9] [3], .delete [8]]
  reservedTxId := none
  isSsi := false

theorem Transaction.scanRange_agrees_get_rewriting :
    rewriting.scanRangeAnswer oneRow [4] [9] = [([5], [51]), ([7], [2])] ∧
      rewriting.getAnswer oneRow [7] = some [2] := by
  have hscan : rewriting.scanRangeAnswer oneRow [4] [9] = [([5], [51]), ([7], [2])] := by decide
  have hagree : ∀ key value, (key, value) ∈ rewriting.scanRangeAnswer oneRow [4] [9] ↔
      ([4] ≤ key ∧ key < [9]) ∧ rewriting.getAnswer oneRow key = some value :=
    (scanRange_agrees_get oneRow_agrees).2
  refine ⟨hscan, ((hagree [7] [2]).mp ?_).2⟩
  rw [hscan]
  exact .tail _ (.head _)

end HatP
