import HatP.Pressure

/-!
# The two backends of the memtable

One backend is a `BTreeMap` of chains, the other a `SkipMap` of cells in which a
chain is replaced by a changed copy.  Both are ordered maps by key.  A range with
inverted bounds makes the first panic and is empty for the second.
-/

namespace HatP

open Std (ExtTreeMap)

/-- The cell of an entry of the skip map, which nothing else refers to. -/
structure ArcSwap where
  current : VersionChain

structure Backed (κ : Type) where
  entries : ExtTreeMap Bytes κ
  bytes : ℕ

abbrev BTreeMapTable := Backed VersionChain

abbrev SkipMapTable := Backed ArcSwap

/-- What the backends do differently; a range is `none` when it panics. -/
structure MemTableBackend (κ : Type) where
  load : κ → VersionChain
  range : Bytes → Bytes → ExtTreeMap Bytes κ → Option (List (Bytes × κ))
  insert : Bytes → VersionedValue → ExtTreeMap Bytes κ → ExtTreeMap Bytes κ
  garbageCollect : ℕ → ExtTreeMap Bytes κ → ℕ × ExtTreeMap Bytes κ
  drainInto : ExtTreeMap Bytes κ → List VersionedRow → List VersionedRow

def between {κ : Type} (lower upper : Bytes) (entries : ExtTreeMap Bytes κ) :
    List (Bytes × κ) :=
  entries.toList.filter fun entry ↦ decide (lower ≤ entry.1) && decide (entry.1 < upper)

def VersionChain.collectedLength (oldestSnapshot : ℕ) (chain : VersionChain) : ℕ :=
  chain.versions.length - (chain.garbageCollect oldestSnapshot).versions.length

/-- Chains are changed in place, behind `entry(key).or_default()`. -/
def btreeMapTable : MemTableBackend VersionChain where
  load := id
  range lower upper entries := if upper < lower then none else some (between lower upper entries)
  insert key version entries :=
    entries.alter key fun entry ↦ some ((entry.getD .empty).insert version)
  garbageCollect oldestSnapshot entries :=
    ((entries.toList.map fun entry ↦ entry.2.collectedLength oldestSnapshot).sum,
      entries.map fun _ chain ↦ chain.garbageCollect oldestSnapshot)
  drainInto entries out :=
    out ++ entries.toList.flatMap fun entry ↦ entry.2.versions.map (VersionedRow.mk entry.1)

/-- `get_or_insert` and `rcu`.  A collected chain is stored when it has lost versions,
and a chain of one version is drained by itself. -/
def skipMapTable : MemTableBackend ArcSwap where
  load := ArcSwap.current
  range lower upper entries := some (between lower upper entries)
  insert key version entries :=
    (entries.insertIfNew key ⟨.empty⟩).modify key fun swap ↦ ⟨swap.current.insert version⟩
  garbageCollect oldestSnapshot entries :=
    (entries.toList.foldl (fun dropped entry ↦
        dropped + entry.2.current.collectedLength oldestSnapshot) 0,
      entries.map fun _ swap ↦
        ⟨(MemTable.collected oldestSnapshot swap.current).getD swap.current⟩)
  drainInto entries out :=
    entries.toList.foldl (fun out entry ↦
      match entry.2.current.versions with
      | [version] => out ++ [⟨entry.1, version⟩]
      | versions => versions.foldl (fun out version ↦ out ++ [⟨entry.1, version⟩]) out) out

/-! ## Calls -/

inductive MemtableCall
  | applyRecordsBatch (records : List WalRecord) (commitTs : ℕ)
  | applyMutationsBatch (txId : ℕ) (mutations : List Mutation) (commitTs : ℕ)
  | garbageCollect (oldestSnapshot : ℕ)
  | clear
  | erasePrefix (start : Bytes)
  | get (key : Bytes) (snapshot : ℕ)
  | scanPrefixVersions (start : Bytes) (snapshot : ℕ)
  | scanRangeVersions (lower upper : Bytes) (snapshot : ℕ)
  | allVersions
  | drainInto (out : List VersionedRow)
  | len
  | isEmpty
  | approximateBytes

inductive MemtableReply
  | done (result : Except EngineError Unit)
  | count (n : ℕ)
  | version (version : Option VersionedValue)
  | rows (rows : List VersionedRow)
  | flag (answer : Bool)

namespace MemTableBackend

variable {κ : Type} (backend : MemTableBackend κ)

def install (txId commitTs : ℕ) (table : Backed κ) (m : Mutation) : Backed κ where
  entries := backend.insert m.key (m.version txId commitTs) table.entries
  bytes := saturatingAdd table.bytes m.footprint

/-- A put without a value ends the batch and leaves what was installed before. -/
def applyRecordsBatch (commitTs : ℕ) :
    List WalRecord → Backed κ → Except EngineError Unit × Backed κ
  | [], table => (.ok (), table)
  | ⟨txId, .put, key, some value⟩ :: records, table =>
    applyRecordsBatch commitTs records (backend.install txId commitTs table (.put key value))
  | ⟨_, .put, _, none⟩ :: _, table => (.error (.corrupt "put WAL record has no value"), table)
  | ⟨txId, .delete, key, _⟩ :: records, table =>
    applyRecordsBatch commitTs records (backend.install txId commitTs table (.delete key))
  | ⟨_, .commit, _, _⟩ :: records, table | ⟨_, .abort, _, _⟩ :: records, table =>
    applyRecordsBatch commitTs records table

def visible (snapshot : ℕ) (entries : List (Bytes × κ)) : List VersionedRow :=
  entries.filterMap fun entry ↦
    ((backend.load entry.2).get snapshot).map (VersionedRow.mk entry.1)

def scanPrefixVersions (start : Bytes) (snapshot : ℕ) (table : Backed κ) :
    Option (List VersionedRow) :=
  (backend.range start (prefixUpperExclusive start) table.entries).map fun entries ↦
    backend.visible snapshot (entries.filter fun entry ↦ start.isPrefixOf entry.1)

def erasePrefix (start : Bytes) (table : Backed κ) : Option (ℕ × Backed κ) :=
  (backend.range start (prefixUpperExclusive start) table.entries).map fun entries ↦
    let keys := entries.map Prod.fst
    (keys.length, { table with entries := keys.foldl (fun t key ↦ t.erase key) table.entries })

/-- The reply and the table after the call; `none` when the call panics. -/
def exec (table : Backed κ) : MemtableCall → Option (MemtableReply × Backed κ)
  | .applyRecordsBatch records commitTs =>
    some (Prod.map .done id (backend.applyRecordsBatch commitTs records table))
  | .applyMutationsBatch txId mutations commitTs =>
    some (.done (.ok ()), mutations.foldl (backend.install txId commitTs) table)
  | .garbageCollect oldestSnapshot =>
    some (Prod.map .count (Backed.mk · table.bytes)
      (backend.garbageCollect oldestSnapshot table.entries))
  | .clear => some (.done (.ok ()), ⟨∅, 0⟩)
  | .erasePrefix start => (backend.erasePrefix start table).map (Prod.map .count id)
  | .get key snapshot =>
    some (.version (table.entries[key]?.bind fun cell ↦ (backend.load cell).get snapshot), table)
  | .scanPrefixVersions start snapshot =>
    (backend.scanPrefixVersions start snapshot table).map fun rows ↦ (.rows rows, table)
  | .scanRangeVersions lower upper snapshot =>
    (backend.range lower upper table.entries).map fun entries ↦
      (.rows (backend.visible snapshot entries), table)
  | .allVersions =>
    some (.rows (table.entries.toList.flatMap fun entry ↦
      (backend.load entry.2).versions.map (VersionedRow.mk entry.1)), table)
  | .drainInto out => some (.rows (backend.drainInto table.entries out), table)
  | .len => some (.count table.entries.size, table)
  | .isEmpty => some (.flag table.entries.isEmpty, table)
  | .approximateBytes => some (.count table.bytes, table)

def replies (table : Backed κ) : List MemtableCall → Option (List MemtableReply)
  | [] => some []
  | call :: calls =>
    (backend.exec table call).bind fun result ↦ (replies result.2 calls).map (result.1 :: ·)

end MemTableBackend

open MemTableBackend

/-! ## The same content in cells -/

def swapped (entries : ExtTreeMap Bytes VersionChain) : ExtTreeMap Bytes ArcSwap :=
  entries.map fun _ chain ↦ ⟨chain⟩

def Backed.swapped (table : BTreeMapTable) : SkipMapTable :=
  ⟨HatP.swapped table.entries, table.bytes⟩

section Swapped

variable (entries : ExtTreeMap Bytes VersionChain)

theorem getElem?_swapped (key : Bytes) : (swapped entries)[key]? = entries[key]?.map ArcSwap.mk :=
  ExtTreeMap.getElem?_map

theorem toList_swapped : (swapped entries).toList = entries.toList.map (Prod.map id ArcSwap.mk) :=
  ExtTreeMap.toList_map

theorem between_swapped (lower upper : Bytes) :
    between lower upper (swapped entries) =
      (between lower upper entries).map (Prod.map id ArcSwap.mk) := by
  rw [between, toList_swapped, List.filter_map]
  rfl

theorem insert_swapped (key : Bytes) (version : VersionedValue) :
    skipMapTable.insert key version (swapped entries) =
      swapped (btreeMapTable.insert key version entries) := by
  apply ExtTreeMap.ext_getElem?
  intro k
  simp only [skipMapTable, btreeMapTable, getElem?_swapped, ExtTreeMap.getElem?_modify,
    ExtTreeMap.getElem?_insertIfNew, ExtTreeMap.getElem?_alter,
    ExtTreeMap.mem_iff_isSome_getElem?]
  by_cases hkey : compare key k = .eq
  · simp only [if_pos hkey, Std.ReflCmp.compare_self, true_and]
    cases entries[key]? <;> rfl
  · simp only [hkey, false_and, if_false]

theorem garbageCollect_swapped (oldestSnapshot : ℕ) :
    skipMapTable.garbageCollect oldestSnapshot (swapped entries) =
      Prod.map id swapped (btreeMapTable.garbageCollect oldestSnapshot entries) := by
  apply Prod.ext
  · simp only [skipMapTable, btreeMapTable, Prod.map_fst, id_eq, toList_swapped, List.foldl_map,
      List.sum_eq_foldl]
    rfl
  · apply ExtTreeMap.ext_getElem?
    intro k
    simp only [skipMapTable, btreeMapTable, Prod.map_snd, getElem?_swapped,
      ExtTreeMap.getElem?_map, Option.map_map]
    cases entries[k]? with
    | none => rfl
    | some chain =>
      exact congrArg (some ∘ ArcSwap.mk) (MemTable.getD_collected oldestSnapshot chain)

theorem drainInto_swapped (out : List VersionedRow) :
    skipMapTable.drainInto (swapped entries) out = btreeMapTable.drainInto entries out := by
  have hone : ∀ (key : Bytes) (versions : List VersionedValue) (out : List VersionedRow),
      versions.foldl (fun out version ↦ out ++ [⟨key, version⟩]) out =
        out ++ versions.map (VersionedRow.mk key) := by
    intro key versions
    induction versions with
    | nil => simp
    | cons version versions ih => simp [ih]
  simp only [skipMapTable, btreeMapTable, toList_swapped, List.foldl_map, Prod.map_fst,
    Prod.map_snd, id_eq]
  induction entries.toList generalizing out with
  | nil => simp
  | cons entry rest ih =>
    rw [List.foldl_cons, ih, List.flatMap_cons, ← List.append_assoc]
    congr 1
    split
    next version h => rw [h, List.map_singleton]
    next => exact hone entry.1 _ out

theorem foldl_erase_swapped (keys : List Bytes) :
    keys.foldl (fun t key ↦ t.erase key) (swapped entries) =
      swapped (keys.foldl (fun t key ↦ t.erase key) entries) := by
  induction keys generalizing entries with
  | nil => rfl
  | cons key keys ih =>
    have herase : (swapped entries).erase key = swapped (entries.erase key) := by
      apply ExtTreeMap.ext_getElem?
      intro k
      simp only [getElem?_swapped, ExtTreeMap.getElem?_erase]
      split <;> rfl
    rw [List.foldl_cons, herase, ih, List.foldl_cons]

end Swapped

theorem not_prefixUpperExclusive_lt (start : Bytes) : ¬prefixUpperExclusive start < start := by
  by_cases h : ∃ byte ∈ start, byte ≠ 255
  · have hself := (inPrefixRange_iff h).mpr List.prefix_rfl
    rw [inPrefixRange, Bool.and_eq_true, decide_eq_true_eq, decide_eq_true_eq] at hself
    exact hself.2.not_gt
  · have hnone : start.reverse.dropWhile (· == 255) = [] := by
      push Not at h
      exact List.dropWhile_eq_nil_iff.mpr fun byte hmem ↦
        beq_iff_eq.mpr (h byte (List.mem_reverse.mp hmem))
    rw [prefixUpperExclusive, hnone]
    exact lt_irrefl start

theorem range_btreeMapTable (start : Bytes) (entries : ExtTreeMap Bytes VersionChain) :
    btreeMapTable.range start (prefixUpperExclusive start) entries =
      some (between start (prefixUpperExclusive start) entries) :=
  if_neg (not_prefixUpperExclusive_lt start)

theorem range_skipMapTable (lower upper : Bytes) (entries : ExtTreeMap Bytes ArcSwap) :
    skipMapTable.range lower upper entries = some (between lower upper entries) :=
  rfl

section Calls

variable (table : BTreeMapTable)

theorem install_swapped (txId commitTs : ℕ) (m : Mutation) :
    skipMapTable.install txId commitTs table.swapped m =
      (btreeMapTable.install txId commitTs table m).swapped :=
  congrArg (Backed.mk · _) (insert_swapped table.entries _ _)

theorem applyRecordsBatch_swapped (commitTs : ℕ) (records : List WalRecord) :
    skipMapTable.applyRecordsBatch commitTs records table.swapped =
      Prod.map id Backed.swapped (btreeMapTable.applyRecordsBatch commitTs records table) := by
  induction records generalizing table with
  | nil => rfl
  | cons record records ih =>
    obtain ⟨txId, op, key, value⟩ := record
    cases op with
    | put =>
      cases value with
      | none => rfl
      | some value =>
        rw [applyRecordsBatch, install_swapped, ih]
        rfl
    | delete =>
      rw [applyRecordsBatch, install_swapped, ih]
      rfl
    | commit | abort => exact ih table

theorem visible_swapped (snapshot : ℕ) (entries : List (Bytes × VersionChain)) :
    skipMapTable.visible snapshot (entries.map (Prod.map id ArcSwap.mk)) =
      btreeMapTable.visible snapshot entries :=
  List.filterMap_map ..

def MemtableCall.Ordered : MemtableCall → Prop
  | .scanRangeVersions lower upper _ => lower ≤ upper
  | _ => True

theorem exec_swapped {call : MemtableCall} (h : call.Ordered) :
    ∃ reply next, btreeMapTable.exec table call = some (reply, next) ∧
      skipMapTable.exec table.swapped call = some (reply, next.swapped) := by
  cases call with
  | applyRecordsBatch records commitTs =>
    refine ⟨_, _, rfl, ?_⟩
    rw [exec, applyRecordsBatch_swapped]
    rfl
  | applyMutationsBatch txId mutations commitTs =>
    refine ⟨_, _, rfl, congrArg (fun next ↦ some (_, next)) ?_⟩
    exact List.foldl_hom Backed.swapped fun table m ↦ install_swapped table txId commitTs m
  | garbageCollect oldestSnapshot =>
    refine ⟨_, _, rfl, ?_⟩
    rw [exec, Backed.swapped, garbageCollect_swapped]
    rfl
  | clear | approximateBytes => exact ⟨_, _, rfl, rfl⟩
  | erasePrefix start =>
    refine ⟨_, _, by rw [exec, erasePrefix,
      range_btreeMapTable]; rfl, ?_⟩
    simp only [exec, erasePrefix, skipMapTable, Backed.swapped,
      between_swapped, List.map_map, Option.map_some, Prod.map, id_eq]
    exact congrArg (fun entries ↦ some (_, Backed.mk entries _)) (foldl_erase_swapped _ _)
  | get key snapshot =>
    refine ⟨_, _, rfl, ?_⟩
    rw [exec, Backed.swapped, getElem?_swapped]
    cases table.entries[key]? <;> rfl
  | scanPrefixVersions start snapshot =>
    refine ⟨_, _, by rw [exec, scanPrefixVersions,
      range_btreeMapTable]; rfl, ?_⟩
    rw [exec, scanPrefixVersions, Backed.swapped,
      range_skipMapTable, between_swapped, Option.map_some, List.filter_map, visible_swapped]
    rfl
  | scanRangeVersions lower upper snapshot =>
    have hrange : btreeMapTable.range lower upper table.entries =
        some (between lower upper table.entries) := if_neg h.not_gt
    refine ⟨_, _, by rw [exec, hrange]; rfl, ?_⟩
    rw [exec, Backed.swapped, range_skipMapTable, between_swapped,
      Option.map_some, visible_swapped]
  | allVersions =>
    refine ⟨_, _, rfl, ?_⟩
    rw [exec, Backed.swapped, toList_swapped, List.flatMap_map]
    rfl
  | drainInto out =>
    refine ⟨_, _, rfl, ?_⟩
    rw [exec, Backed.swapped, drainInto_swapped]
  | len =>
    refine ⟨_, _, rfl, ?_⟩
    rw [exec, Backed.swapped, swapped, ExtTreeMap.size_map]
  | isEmpty =>
    refine ⟨_, _, rfl, ?_⟩
    rw [exec, Backed.swapped, swapped, ExtTreeMap.isEmpty_eq_size_beq_zero,
      ExtTreeMap.size_map, ← ExtTreeMap.isEmpty_eq_size_beq_zero]

theorem replies_swapped {calls : List MemtableCall} (h : ∀ call ∈ calls, call.Ordered) :
    ∃ replies, btreeMapTable.replies table calls = some replies ∧
      skipMapTable.replies table.swapped calls = some replies := by
  induction calls generalizing table with
  | nil => exact ⟨[], rfl, rfl⟩
  | cons call calls ih =>
    obtain ⟨hcall, hcalls⟩ := List.forall_mem_cons.mp h
    obtain ⟨reply, next, hbtree, hskip⟩ := exec_swapped table hcall
    obtain ⟨answers, hlater, hlater'⟩ := ih next hcalls
    refine ⟨reply :: answers, ?_, ?_⟩
    · rw [replies, hbtree, Option.bind_some, hlater, Option.map_some]
    · rw [replies, hskip, Option.bind_some, hlater', Option.map_some]

end Calls

/-- As long as no range scan has its lower bound above the upper one, the
backends give the same replies to every sequence of calls, and neither panics. -/
theorem backends_equivalent {calls : List MemtableCall} (h : ∀ call ∈ calls, call.Ordered) :
    ∃ replies, btreeMapTable.replies ⟨∅, 0⟩ calls = some replies ∧
      skipMapTable.replies ⟨∅, 0⟩ calls = some replies :=
  replies_swapped ⟨∅, 0⟩ h

def putThenScan (lower upper : Bytes) : List MemtableCall :=
  [.applyMutationsBatch 1 [.put [107] [1]] 1, .scanRangeVersions lower upper 1]

theorem inverted_scan_panics :
    btreeMapTable.replies ⟨∅, 0⟩ (putThenScan [109] [107]) = none ∧
      skipMapTable.replies ⟨∅, 0⟩ (putThenScan [109] [107]) = some [.done (.ok ()), .rows []] :=
  ⟨rfl, rfl⟩

theorem backends_equivalent_putThenScan :
    (∀ call ∈ putThenScan [107] [109], call.Ordered) ∧
      ∃ replies, btreeMapTable.replies ⟨∅, 0⟩ (putThenScan [107] [109]) = some replies ∧
        skipMapTable.replies ⟨∅, 0⟩ (putThenScan [107] [109]) = some replies := by
  have hordered : ∀ call ∈ putThenScan [107] [109], call.Ordered := by
    simp [putThenScan, MemtableCall.Ordered]
    decide
  exact ⟨hordered, backends_equivalent hordered⟩

/-! ## Prefix ranges -/

theorem getElem?_foldl_erase {κ : Type} (keys : List Bytes) (entries : ExtTreeMap Bytes κ)
    (key : Bytes) :
    (keys.foldl (fun t key ↦ t.erase key) entries)[key]? =
      if key ∈ keys then none else entries[key]? := by
  induction keys generalizing entries with
  | nil => simp
  | cons k keys ih =>
    rw [List.foldl_cons, ih, ExtTreeMap.getElem?_erase]
    by_cases hk : k = key
    · simp [hk]
    · simp [hk, Ne.symm hk]

section Prefixes

variable {κ : Type} {start : Bytes} (h : ∃ byte ∈ start, byte ≠ 255)

include h

theorem between_prefix (entries : ExtTreeMap Bytes κ) :
    between start (prefixUpperExclusive start) entries =
      entries.toList.filter fun entry ↦ start.isPrefixOf entry.1 := by
  apply List.filter_congr
  intro entry _
  rw [Bool.eq_iff_iff, List.isPrefixOf_iff_prefix]
  exact inPrefixRange_iff h

/-- What a backend does with the entries of one prefix. -/
def ExactPrefix (backend : MemTableBackend κ) (start : Bytes) : Prop :=
  ∀ table : Backed κ,
    (∃ next, backend.erasePrefix start table =
        some ((table.entries.keys.filter fun key ↦ start.isPrefixOf key).length, next) ∧
      ∀ key, next.entries[key]? = if start <+: key then none else table.entries[key]?) ∧
    ∀ snapshot, backend.scanPrefixVersions start snapshot table =
      some (backend.visible snapshot
        (table.entries.toList.filter fun entry ↦ start.isPrefixOf entry.1))

theorem exactPrefix_of_range (backend : MemTableBackend κ)
    (hrange : ∀ entries, backend.range start (prefixUpperExclusive start) entries =
      some (between start (prefixUpperExclusive start) entries)) : ExactPrefix backend start := by
  intro table
  have hentries := between_prefix h table.entries
  have hkeys : (between start (prefixUpperExclusive start) table.entries).map Prod.fst =
      table.entries.keys.filter fun key ↦ start.isPrefixOf key := by
    rw [hentries, ← ExtTreeMap.map_fst_toList_eq_keys, List.filter_map]
    rfl
  constructor
  · refine ⟨_, by rw [erasePrefix, hrange, Option.map_some, hkeys], fun key ↦ ?_⟩
    simp only [getElem?_foldl_erase, List.mem_filter, List.isPrefixOf_iff_prefix,
      ExtTreeMap.mem_keys]
    by_cases hmem : key ∈ table.entries
    · simp [hmem]
    · simp [hmem]
  · intro snapshot
    rw [scanPrefixVersions, hrange, hentries, Option.map_some, List.filter_filter]
    simp only [Bool.and_self]

/-- The range of a prefix that has a byte below the maximum holds the keys with
that prefix and no others, so both backends erase and scan just those. -/
theorem prefix_ranges_exact :
    (∀ key, start ≤ key ∧ key < prefixUpperExclusive start ↔ start <+: key) ∧
      ExactPrefix btreeMapTable start ∧ ExactPrefix skipMapTable start := by
  refine ⟨fun key ↦ ?_, exactPrefix_of_range h _ (range_btreeMapTable start),
    exactPrefix_of_range h _ (range_skipMapTable _ _)⟩
  rw [← inPrefixRange_iff h, inPrefixRange, Bool.and_eq_true, decide_eq_true_eq, decide_eq_true_eq]

end Prefixes

theorem prefix_ranges_exact_carry :
    (∃ byte ∈ ([1, 255] : Bytes), byte ≠ 255) ∧
      ∀ key : Bytes, [1, 255] ≤ key ∧ key < [2] ↔ [1, 255] <+: key := by
  have hbyte : ∃ byte ∈ ([1, 255] : Bytes), byte ≠ 255 := ⟨1, by decide, by decide⟩
  exact ⟨hbyte, (prefix_ranges_exact hbyte).1⟩

end HatP
