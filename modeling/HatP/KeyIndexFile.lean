import HatP.KeyIndex

/-!
# Reading a key index back

A file is taken as an index after one walk over its entries, which follows their
lengths and checks each entry against the end of the file.  The lookups read
without further checks.
-/

namespace HatP

open LittleEndian

namespace KeyIndex

variable {data bytes before after : Bytes} {index : KeyIndex} {row : VersionedRow}
  {rows : List VersionedRow} {cursor next count : ℕ} {offsets : List ℕ}

/-- The checks of one entry, with the position of the entry behind it. -/
def nextEntry (data : Bytes) (cursor : ℕ) : Option ℕ :=
  if data.length < cursor + 4 then none
  else
    let valueCursor := cursor + 4 + readAt 4 data cursor
    if data.length < valueCursor + 4 then none
    else
      let valueLen := readAt 4 data valueCursor
      let next := valueCursor + 4 + (if valueLen = valueNone then 0 else valueLen) + 16
      if data.length < next then none else some next

def parseOffsets (data : Bytes) : ℕ → ℕ → Option (List ℕ)
  | 0, _ => some []
  | count + 1, cursor => do
    let next ← nextEntry data cursor
    let offsets ← parseOffsets data count next
    return cursor % 2 ^ 32 :: offsets

def fromBytes (data : Bytes) : Option KeyIndex :=
  if data.length < 8 then none
  else if data.take 4 ≠ magic then none
  else
    let count := readAt 4 data 4
    (parseOffsets data count 8).map fun offsets ↦ ⟨data, count, offsets⟩

/-! ## What a lookup reads -/

/-- Ranges of bytes, each a start and a length. -/
def keyReads (index : KeyIndex) (entryStart : ℕ) : List (ℕ × ℕ) :=
  [(entryStart, 4), (entryStart + 4, readAt 4 index.data entryStart)]

def versionReads (index : KeyIndex) (entryStart : ℕ) : List (ℕ × ℕ) :=
  let valueCursor := entryStart + 4 + readAt 4 index.data entryStart
  let valueLen := readAt 4 index.data valueCursor
  let value := if valueLen = valueNone then [] else [(valueCursor + 4, valueLen)]
  let tsOffset := valueCursor + 4 + if valueLen = valueNone then 0 else valueLen
  (entryStart, 4) :: (valueCursor, 4) :: value ++ [(tsOffset, 8), (tsOffset + 8, 8)]

structure Lookup where
  probes : List ℕ
  reads : List (ℕ × ℕ)
  found : Option VersionedValue

/-- `get` with the offsets it looks up and the ranges it reads; `none` when its
loop does not end. -/
def getTraced (index : KeyIndex) (key : Bytes) : Option Lookup :=
  if index.count = 0 then some ⟨[], [], none⟩
  else
    (BinarySearch.trace (fun mid ↦ compare (index.entryKey (index.offset mid)) key)
      (index.count + 1) 0 index.count).map fun (probes, hit) ↦
        { probes := probes
          reads := (probes.flatMap fun mid ↦ index.keyReads (index.offset mid)) ++
            hit.toList.flatMap fun mid ↦ index.versionReads (index.offset mid)
          found := hit.map fun mid ↦ index.versionAt (index.offset mid) }

def ReadsInside (index : KeyIndex) (reads : List (ℕ × ℕ)) : Prop :=
  ∀ range ∈ reads, range.1 + range.2 ≤ index.data.length

theorem readsInside_of_nextEntry (h : nextEntry index.data cursor = some next) :
    index.ReadsInside (index.keyReads cursor) ∧ index.ReadsInside (index.versionReads cursor) := by
  simp only [nextEntry] at h
  split_ifs at h with hkeyLen hvalueLen hvalue hend hend
  all_goals
    constructor
    · simp only [ReadsInside, keyReads, List.forall_mem_cons, List.not_mem_nil, false_imp_iff,
        implies_true, and_true]
      omega
    · simp only [ReadsInside, versionReads, hvalue, if_true, if_false, List.nil_append,
        List.cons_append, List.forall_mem_cons, List.not_mem_nil, false_imp_iff, implies_true,
        and_true]
      omega

theorem nextEntry_of_parseOffsets (hlen : data.length < 2 ^ 32)
    (h : parseOffsets data count cursor = some offsets) :
    offsets.length = count ∧ ∀ offset ∈ offsets, ∃ next, nextEntry data offset = some next := by
  induction count generalizing cursor offsets with
  | zero =>
    obtain rfl := Option.some.inj h
    exact ⟨rfl, by simp⟩
  | succ count ih =>
    obtain ⟨next, hnext, hrest⟩ := Option.bind_eq_some_iff.mp h
    obtain ⟨rest, hparsed, hoffsets⟩ := Option.bind_eq_some_iff.mp hrest
    obtain rfl := Option.some.inj hoffsets
    obtain ⟨hcount, hentries⟩ := ih hparsed
    refine ⟨by rw [List.length_cons, hcount], List.forall_mem_cons.mpr ⟨⟨next, ?_⟩, hentries⟩⟩
    have hinside : cursor + 4 ≤ data.length := by
      by_contra hout
      rw [nextEntry, if_pos (not_le.mp hout)] at hnext
      cases hnext
    rwa [Nat.mod_eq_of_lt (by omega)]

theorem exists_nextEntry (hlen : bytes.length < 2 ^ 32) (h : fromBytes bytes = some index) :
    index.offsets.length = index.count ∧
      ∀ mid < index.count, ∃ next, nextEntry index.data (index.offset mid) = some next := by
  simp only [fromBytes] at h
  split_ifs at h
  obtain ⟨offsets, hparsed, rfl⟩ := Option.map_eq_some_iff.mp h
  obtain ⟨hcount, hentries⟩ := nextEntry_of_parseOffsets hlen hparsed
  refine ⟨hcount, fun mid hmid ↦ hentries _ ?_⟩
  rw [offset, List.getD_eq_getElem _ _ (by rwa [hcount])]
  exact List.getElem_mem _

theorem exists_lookup (hlen : bytes.length < 2 ^ 32) (h : fromBytes bytes = some index)
    (key : Bytes) :
    ∃ lookup, index.getTraced key = some lookup ∧ lookup.found = index.get key ∧
      (∀ mid ∈ lookup.probes, mid < index.offsets.length) ∧ index.ReadsInside lookup.reads := by
  obtain ⟨hcount, hentries⟩ := exists_nextEntry hlen h
  rw [hcount]
  by_cases hzero : index.count = 0
  · refine ⟨⟨[], [], none⟩, if_pos hzero, ?_, by simp, by simp [ReadsInside]⟩
    rw [get, hzero]
    rfl
  · obtain ⟨mids, htrace, hmids⟩ := @BinarySearch.exists_trace
      (fun mid ↦ compare (index.entryKey (index.offset mid)) key) _ 0 _ (Nat.sub_le index.count 0)
    refine ⟨_, by rw [getTraced, if_neg hzero, htrace]; rfl, rfl, hmids, ?_⟩
    intro range hrange
    rcases List.mem_append.mp hrange with hrange | hrange
    · obtain ⟨mid, hmid, hread⟩ := List.mem_flatMap.mp hrange
      obtain ⟨next, hnext⟩ := hentries mid (hmids mid hmid)
      exact (readsInside_of_nextEntry hnext).1 range hread
    · obtain ⟨mid, hmid, hread⟩ := List.mem_flatMap.mp hrange
      obtain ⟨-, hlt, -⟩ := BinarySearch.search_eq_some (Option.mem_toList.mp hmid)
      obtain ⟨next, hnext⟩ := hentries mid hlt
      exact (readsInside_of_nextEntry hnext).2 range hread

/-! ## The round trip -/

/-- Lengths that their fields can hold beside the mark of a tombstone. -/
def Short (row : VersionedRow) : Prop :=
  row.key.length < 2 ^ 32 - 1 ∧ ∀ value, row.version.value = some value → value.length < 2 ^ 32 - 1

theorem nextEntry_of_append (hshort : Short row)
    (hdata : data = before ++ (encodeEntry row ++ after)) :
    nextEntry data before.length = some (before.length + (encodeEntry row).length) := by
  obtain ⟨hkey, hvalue⟩ := hshort
  have hkeyLen := readAt_keyLen hdata (by omega)
  have hvalueLen := readAt_valueLen hvalue hdata
  have hsize : (encodeEntry row).length =
      4 + row.key.length + 4 + (row.version.value.map List.length).getD 0 + 16 := by
    have hfield := length_encodeValue hvalue
    simp only [encodeEntry, List.length_append, length_encode, hfield]
    omega
  have hlen : data.length = before.length + (encodeEntry row).length + after.length := by
    rw [hdata, List.length_append, List.length_append, Nat.add_assoc]
  have hcursor : (if (row.version.value.map List.length).getD valueNone = valueNone then 0
      else (row.version.value.map List.length).getD valueNone) =
        (row.version.value.map List.length).getD 0 := by
    rcases hv : row.version.value with _ | value
    · rfl
    · exact if_neg (hvalue value hv).ne
  simp only [nextEntry, hkeyLen, hvalueLen, hcursor]
  rw [if_neg (by omega), if_neg (by omega), if_neg (by omega)]
  exact congrArg some (by omega)

theorem exists_parseOffsets (hshort : ∀ row ∈ rows, Short row)
    (hdata : data = before ++ rows.flatMap encodeEntry) (acc : List ℕ) :
    ∃ offsets, parseOffsets data rows.length before.length = some offsets ∧
      (rows.foldl pushRow (before, acc)).2 = acc ++ offsets := by
  induction rows generalizing before acc with
  | nil => exact ⟨[], rfl, (List.append_nil acc).symm⟩
  | cons row rows ih =>
    obtain ⟨hrow, hrows⟩ := List.forall_mem_cons.mp hshort
    have hbehind : data = (before ++ encodeEntry row) ++ rows.flatMap encodeEntry := by
      rw [hdata, List.flatMap_cons, List.append_assoc]
    obtain ⟨offsets, hparsed, hfold⟩ := ih hrows hbehind (acc ++ [before.length % 2 ^ 32])
    rw [List.length_append] at hparsed
    refine ⟨before.length % 2 ^ 32 :: offsets, ?_, ?_⟩
    · exact Option.bind_eq_some_iff.mpr ⟨_, nextEntry_of_append hrow hdata,
        Option.bind_eq_some_iff.mpr ⟨offsets, hparsed, rfl⟩⟩
    · rw [List.foldl_cons, pushRow, hfold, List.append_assoc]
      rfl

theorem length_le_length_flatMap (rows : List VersionedRow) :
    rows.length ≤ (rows.flatMap encodeEntry).length := by
  induction rows with
  | nil => exact Nat.zero_le _
  | cons row rows ih =>
    simp only [List.flatMap_cons, List.length_append, List.length_cons, encodeEntry, length_encode]
    omega

theorem fromBytes_fromRows (hsize : (fromRows rows).data.length < 2 ^ 32)
    (hshort : ∀ row ∈ rows, Short row) :
    fromBytes (fromRows rows).data = some (fromRows rows) := by
  have hdata : (fromRows rows).data =
      header (rows.length % 2 ^ 32) ++ rows.flatMap encodeEntry := foldl_pushRow_data rows _
  have hheader : (header (rows.length % 2 ^ 32)).length = 8 := rfl
  have hlen : (fromRows rows).data.length = 8 + (rows.flatMap encodeEntry).length := by
    rw [hdata, List.length_append, hheader]
  have hcount : rows.length % 2 ^ 32 = rows.length := by
    apply Nat.mod_eq_of_lt
    have hrows := length_le_length_flatMap rows
    omega
  have hread : readAt 4 (fromRows rows).data 4 = rows.length % 2 ^ 32 := by
    rw [hdata, header, List.append_assoc]
    exact readAt_eq rfl rfl (Nat.mod_lt _ (by norm_num))
  have hmagic : (fromRows rows).data.take 4 = magic := by
    rw [hdata]
    rfl
  obtain ⟨offsets, hparsed, hfold⟩ := exists_parseOffsets hshort hdata []
  rw [hheader, ← hcount] at hparsed
  rw [fromBytes, if_neg (by omega), if_neg (not_not.mpr hmagic)]
  dsimp only
  rw [hread, hparsed, Option.map_some]
  have hoffsets : offsets = (fromRows rows).offsets := hfold.symm
  rw [hoffsets]
  rfl

/-- Every lookup in an accepted file ends and reads only inside of it, and the
bytes of a built index are accepted as that index. -/
theorem parsing_safe_and_faithful :
    (∀ bytes index, bytes.length < 2 ^ 32 → fromBytes bytes = some index → ∀ key,
      ∃ lookup, index.getTraced key = some lookup ∧ lookup.found = index.get key ∧
        (∀ mid ∈ lookup.probes, mid < index.offsets.length) ∧
        index.ReadsInside lookup.reads) ∧
    ∀ rows, (fromRows rows).data.length < 2 ^ 32 → (∀ row ∈ rows, Short row) →
      fromBytes (fromRows rows).data = some (fromRows rows) :=
  ⟨fun _ _ hlen h key ↦ exists_lookup hlen h key,
    fun _ hsize hshort ↦ fromBytes_fromRows hsize hshort⟩

theorem parsing_safe_and_faithful_overwritten :
    (fromRows overwritten).data.length < 2 ^ 32 ∧ (∀ row ∈ overwritten, Short row) ∧
      ∃ lookup, (fromRows overwritten).getTraced [107] = some lookup ∧
        (fromRows overwritten).ReadsInside lookup.reads := by
  have hshort : ∀ row ∈ overwritten, Short row := by
    rw [overwritten_eq]
    simp [Short]
  have hsize : (fromRows overwritten).data.length < 2 ^ 32 := by decide
  have hread := parsing_safe_and_faithful.2 overwritten hsize hshort
  obtain ⟨lookup, htraced, -, -, hinside⟩ :=
    parsing_safe_and_faithful.1 _ _ hsize hread [107]
  exact ⟨hsize, hshort, lookup, htraced, hinside⟩

end KeyIndex

end HatP
