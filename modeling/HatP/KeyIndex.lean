import HatP.Lib.BinarySearch
import HatP.Lib.LittleEndian
import HatP.Sst

/-!
# The key-index sidecar

The index of an SST is one byte string of length-prefixed entries and the list
of their offsets.  A point lookup is a binary search over the offsets that
decodes the key of each probe and, on a hit, the version behind it.
-/

namespace HatP

open LittleEndian

def valueNone : ℕ := 0xFFFFFFFF

/-- `u32::try_from(n).unwrap_or(u32::MAX)`. -/
def clampU32 (n : ℕ) : ℕ := min n (2 ^ 32 - 1)

structure KeyIndex where
  data : Bytes
  count : ℕ
  offsets : List ℕ
deriving DecidableEq

namespace KeyIndex

variable {before after key : Bytes} {index : KeyIndex} {row : VersionedRow} {v : VersionedValue}
  {i : ℕ} {rows : List VersionedRow}

def magic : Bytes := [0x4B, 0x49, 0x44, 0x58]

def encodeValue : Option Bytes → Bytes
  | some value =>
    let valueLen := clampU32 value.length
    encode 4 valueLen ++ if valueLen = valueNone then [] else value
  | none => encode 4 valueNone

def encodeEntry (row : VersionedRow) : Bytes :=
  encode 4 (clampU32 row.key.length) ++ (row.key ++ (encodeValue row.version.value ++
    (encode 8 row.version.beginTs ++ encode 8 row.version.endTs)))

def pushRow (acc : Bytes × List ℕ) (row : VersionedRow) : Bytes × List ℕ :=
  (acc.1 ++ encodeEntry row, acc.2 ++ [acc.1.length % 2 ^ 32])

def header (count : ℕ) : Bytes := magic ++ encode 4 count

def fromRows (rows : List VersionedRow) : KeyIndex :=
  let count := rows.length % 2 ^ 32
  let built := rows.foldl pushRow (header count, [])
  ⟨built.1, count, built.2⟩

def entryKey (index : KeyIndex) (entryStart : ℕ) : Bytes :=
  slice index.data (entryStart + 4) (readAt 4 index.data entryStart)

def versionAt (index : KeyIndex) (entryStart : ℕ) : VersionedValue :=
  let keyLen := readAt 4 index.data entryStart
  let valueCursor := entryStart + 4 + keyLen
  let valueLen := readAt 4 index.data valueCursor
  let value :=
    if valueLen = valueNone then none else some (slice index.data (valueCursor + 4) valueLen)
  let tsOffset := valueCursor + 4 + if valueLen = valueNone then 0 else valueLen
  { value := value
    beginTs := readAt 8 index.data tsOffset
    endTs := readAt 8 index.data (tsOffset + 8)
    txId := 0 }

def offset (index : KeyIndex) (entry : ℕ) : ℕ := index.offsets.getD entry 0

def get (index : KeyIndex) (key : Bytes) : Option VersionedValue :=
  (BinarySearch.search (fun mid ↦ compare (index.entryKey (index.offset mid)) key)
    index.count 0 index.count).map fun mid ↦ index.versionAt (index.offset mid)

/-! ## Decoding an entry -/

theorem clampU32_eq {n : ℕ} (h : n < 2 ^ 32) : clampU32 n = n := by
  unfold clampU32
  omega

theorem readAt_keyLen {data : Bytes}
    (hdata : data = before ++ (encodeEntry row ++ after)) (hkey : row.key.length < 2 ^ 32) :
    readAt 4 data before.length = row.key.length := by
  have hlen : clampU32 row.key.length = row.key.length := clampU32_eq hkey
  simp only [encodeEntry, hlen, List.append_assoc] at hdata
  exact readAt_eq hdata rfl (by norm_num; omega)

theorem entryKey_of_append (hdata : index.data = before ++ (encodeEntry row ++ after))
    (hkey : row.key.length < 2 ^ 32) :
    index.entryKey before.length = row.key := by
  rw [entryKey, readAt_keyLen hdata hkey]
  have hfield : index.data = (before ++ encode 4 (clampU32 row.key.length)) ++
      (row.key ++ (encodeValue row.version.value ++
        (encode 8 row.version.beginTs ++ encode 8 row.version.endTs) ++ after)) := by
    simp [hdata, encodeEntry]
  exact slice_eq hfield (by simp) rfl

theorem readAt_timestamps {data : Bytes} (hdata : data = before ++ (encodeEntry row ++ after))
    (hbegin : row.version.beginTs < 2 ^ 64) (hend : row.version.endTs < 2 ^ 64) :
    readAt 8 data
        (before.length + 4 + row.key.length + (encodeValue row.version.value).length) =
      row.version.beginTs ∧
    readAt 8 data
        (before.length + 4 + row.key.length + (encodeValue row.version.value).length + 8) =
      row.version.endTs := by
  have hbeginField : data = (before ++ (encode 4 (clampU32 row.key.length) ++ (row.key ++
      encodeValue row.version.value))) ++ (encode 8 row.version.beginTs ++
        (encode 8 row.version.endTs ++ after)) := by
    simp [hdata, encodeEntry]
  have hendField : data = (before ++ (encode 4 (clampU32 row.key.length) ++ (row.key ++
      (encodeValue row.version.value ++ encode 8 row.version.beginTs)))) ++
        (encode 8 row.version.endTs ++ after) := by
    simp [hdata, encodeEntry]
  constructor
  · exact readAt_eq hbeginField (by simp; omega) (by norm_num; omega)
  · exact readAt_eq hendField (by simp; omega) (by norm_num; omega)

theorem encodeValue_some {value : Bytes} (h : value.length < valueNone) :
    encodeValue (some value) = encode 4 value.length ++ value := by
  have hclamp : clampU32 value.length = value.length :=
    clampU32_eq (by unfold valueNone at h; omega)
  simp [encodeValue, hclamp, h.ne]

section Value

variable (hvalue : ∀ value, row.version.value = some value → value.length < valueNone)

include hvalue

theorem readAt_valueLen {data : Bytes} (hdata : data = before ++ (encodeEntry row ++ after)) :
    readAt 4 data (before.length + 4 + row.key.length) =
      (row.version.value.map List.length).getD valueNone := by
  have hfield : data = (before ++ (encode 4 (clampU32 row.key.length) ++ row.key)) ++
      (encodeValue row.version.value ++
        (encode 8 row.version.beginTs ++ encode 8 row.version.endTs ++ after)) := by
    simp [hdata, encodeEntry]
  have hcursor : before.length + 4 + row.key.length =
      (before ++ (encode 4 (clampU32 row.key.length) ++ row.key)).length := by
    simp
    omega
  rcases hv : row.version.value with _ | value
  · rw [hv] at hfield
    exact readAt_eq hfield hcursor (by norm_num [valueNone])
  · have hshort := hvalue value hv
    rw [hv, encodeValue_some hshort, List.append_assoc (encode 4 value.length)] at hfield
    exact readAt_eq hfield hcursor (by unfold valueNone at hshort; norm_num; omega)

theorem length_encodeValue : (encodeValue row.version.value).length =
    4 + (row.version.value.map List.length).getD 0 := by
  rcases hv : row.version.value with _ | value
  · simp [encodeValue]
  · simp [encodeValue_some (hvalue value hv)]

theorem value_of_append (hdata : index.data = before ++ (encodeEntry row ++ after))
    (hkey : row.key.length < 2 ^ 32) :
    (index.versionAt before.length).value = row.version.value ∧
      (index.versionAt before.length).beginTs = readAt 8 index.data
        (before.length + 4 + row.key.length + (encodeValue row.version.value).length) ∧
      (index.versionAt before.length).endTs = readAt 8 index.data
        (before.length + 4 + row.key.length + (encodeValue row.version.value).length + 8) := by
  have hlen := readAt_valueLen hvalue hdata
  rw [length_encodeValue hvalue]
  simp only [versionAt, readAt_keyLen hdata hkey]
  rcases hv : row.version.value with _ | value
  · simp only [hv, Option.map_none, Option.getD_none] at hlen
    simp [hlen]
  · simp only [hv, Option.map_some, Option.getD_some] at hlen
    have hshort := hvalue value hv
    have hfield : index.data = (before ++ (encode 4 (clampU32 row.key.length) ++ (row.key ++
        encode 4 value.length))) ++ (value ++
          (encode 8 row.version.beginTs ++ encode 8 row.version.endTs ++ after)) := by
      simp [hdata, encodeEntry, hv, encodeValue_some hshort]
    have hbytes : slice index.data (before.length + 4 + row.key.length + 4) value.length = value :=
      slice_eq hfield (by simp; omega) rfl
    simp [hlen, hshort.ne, hbytes, ← Nat.add_assoc]

end Value

theorem versionAt_of_append (hdata : index.data = before ++ (encodeEntry row ++ after))
    (hkey : row.key.length < 2 ^ 32)
    (hvalue : ∀ value, row.version.value = some value → value.length < valueNone)
    (hbegin : row.version.beginTs < 2 ^ 64) (hend : row.version.endTs < 2 ^ 64) :
    index.versionAt before.length = row.version.stored := by
  obtain ⟨hvalueAt, hbeginAt, hendAt⟩ := value_of_append hvalue hdata hkey
  obtain ⟨hbeginTs, hendTs⟩ := readAt_timestamps hdata hbegin hend
  exact VersionedValue.mk.injEq .. ▸ ⟨hvalueAt, hbeginAt.trans hbeginTs, hendAt.trans hendTs, rfl⟩

/-! ## The whole index -/

theorem foldl_pushRow_data (rows : List VersionedRow) (acc : Bytes × List ℕ) :
    (rows.foldl pushRow acc).1 = acc.1 ++ rows.flatMap encodeEntry := by
  induction rows generalizing acc with
  | nil => simp
  | cons row rows ih => simp [ih, pushRow]

theorem foldl_pushRow_offsets_append (rows : List VersionedRow) (acc : Bytes × List ℕ) :
    ∃ more, (rows.foldl pushRow acc).2 = acc.2 ++ more := by
  induction rows generalizing acc with
  | nil => exact ⟨[], by simp⟩
  | cons row rows ih =>
    obtain ⟨more, hmore⟩ := ih (pushRow acc row)
    refine ⟨acc.1.length % 2 ^ 32 :: more, ?_⟩
    rw [List.foldl_cons, hmore]
    simp [pushRow]

theorem foldl_pushRow_offset (pre post : List VersionedRow) (row : VersionedRow)
    (acc : Bytes × List ℕ) :
    ((pre ++ row :: post).foldl pushRow acc).2.getD (acc.2.length + pre.length) 0 =
      (acc.1.length + (pre.flatMap encodeEntry).length) % 2 ^ 32 := by
  induction pre generalizing acc with
  | nil =>
    obtain ⟨more, hmore⟩ := foldl_pushRow_offsets_append post (pushRow acc row)
    rw [List.nil_append, List.foldl_cons, hmore]
    simp [pushRow, List.getD_eq_getElem?_getD]
  | cons r pre ih =>
    have hstep := ih (pushRow acc r)
    have hindex : (pushRow acc r).2.length + pre.length = acc.2.length + (r :: pre).length := by
      simp [pushRow]
      omega
    rw [hindex] at hstep
    rw [List.cons_append, List.foldl_cons, hstep]
    simp [pushRow, Nat.add_assoc]

def entrySize (row : VersionedRow) : ℕ :=
  24 + row.key.length + (row.version.value.getD []).length

def layoutSize (rows : List VersionedRow) : ℕ :=
  8 + (rows.map entrySize).sum

theorem length_encodeEntry_le (row : VersionedRow) : (encodeEntry row).length ≤ entrySize row := by
  have hvalue : (encodeValue row.version.value).length ≤
      4 + (row.version.value.getD []).length := by
    rcases row.version.value with _ | value
    · simp [encodeValue]
    · simp only [encodeValue, List.length_append, length_encode, Option.getD_some]
      split_ifs <;> simp
  simp only [encodeEntry, entrySize, List.length_append, length_encode]
  omega

theorem length_flatMap_encodeEntry_le (rows : List VersionedRow) :
    (rows.flatMap encodeEntry).length ≤ (rows.map entrySize).sum := by
  induction rows with
  | nil => simp
  | cons row rows ih =>
    have hrow := length_encodeEntry_le row
    simp only [List.flatMap_cons, List.length_append, List.map_cons, List.sum_cons]
    omega

theorem length_le_sum_entrySize (rows : List VersionedRow) :
    rows.length ≤ (rows.map entrySize).sum := by
  induction rows with
  | nil => simp
  | cons row rows ih =>
    have hpos : 1 ≤ entrySize row := by
      unfold entrySize
      omega
    simp only [List.length_cons, List.map_cons, List.sum_cons]
    omega

theorem entrySize_le_of_mem (h : row ∈ rows) :
    entrySize row ≤ (rows.map entrySize).sum :=
  List.single_le_sum (by simp) _ (List.mem_map_of_mem h)

theorem fromRows_entry {pre post : List VersionedRow}
    (hrows : rows = pre ++ row :: post) (hsize : layoutSize rows < 2 ^ 32) :
    ∃ before after, (fromRows rows).data = before ++ (encodeEntry row ++ after) ∧
      (fromRows rows).offset pre.length = before.length := by
  refine ⟨header (rows.length % 2 ^ 32) ++ pre.flatMap encodeEntry, post.flatMap encodeEntry,
    ?_, ?_⟩
  · rw [fromRows, foldl_pushRow_data]
    simp [hrows]
  · have hoffset := foldl_pushRow_offset pre post row (header (rows.length % 2 ^ 32), [])
    have hpre := length_flatMap_encodeEntry_le pre
    have hheader : (header (rows.length % 2 ^ 32)).length = 8 := by simp [header, magic]
    have hbound : (pre.map entrySize).sum ≤ (rows.map entrySize).sum := by
      simp [hrows]
    rw [← hrows] at hoffset
    simp only [List.length_nil, Nat.zero_add] at hoffset
    rw [offset, fromRows, hoffset, List.length_append]
    apply Nat.mod_eq_of_lt
    unfold layoutSize at hsize
    omega

/-- Rows as a flush or a compaction writes them, with timestamps that fit the
64-bit fields and an index below the limit of its 32-bit offsets. -/
structure Indexable (rows : List VersionedRow) : Prop where
  sorted : SortedRows rows
  contiguous : ∀ key, Contiguous (versionsOf rows key)
  beginTs_lt : ∀ row ∈ rows, row.version.beginTs < 2 ^ 64
  endTs_lt : ∀ row ∈ rows, row.version.endTs < 2 ^ 64
  size_lt : layoutSize rows < 2 ^ 32

section Sized

variable {rows : List VersionedRow} (hsize : layoutSize rows < 2 ^ 32)

include hsize

theorem entrySize_lt (hrow : row ∈ rows) : entrySize row < 2 ^ 32 - 8 := by
  have hle := entrySize_le_of_mem hrow
  unfold layoutSize at hsize
  omega

theorem count_fromRows : (fromRows rows).count = rows.length := by
  have hlen := length_le_sum_entrySize rows
  unfold layoutSize at hsize
  exact Nat.mod_eq_of_lt (by omega)

theorem exists_entry (hi : rows[i]? = some row) :
    ∃ before after, (fromRows rows).data = before ++ (encodeEntry row ++ after) ∧
      (fromRows rows).offset i = before.length ∧ row.key.length < 2 ^ 32 ∧
      ∀ value, row.version.value = some value → value.length < valueNone := by
  obtain ⟨hlt, hget⟩ := List.getElem?_eq_some_iff.mp hi
  have hrow : row ∈ rows := hget ▸ List.getElem_mem hlt
  have hsplit : rows = rows.take i ++ row :: rows.drop (i + 1) := by
    rw [← hget, ← List.drop_eq_getElem_cons hlt, List.take_append_drop]
  have hpos : (rows.take i).length = i := List.length_take_of_le hlt.le
  obtain ⟨before, after, hdata, hoffset⟩ := fromRows_entry hsplit hsize
  have hentry := entrySize_lt hsize hrow
  unfold entrySize at hentry
  rw [hpos] at hoffset
  refine ⟨before, after, hdata, hoffset, by omega, fun value hvalue ↦ ?_⟩
  rw [hvalue] at hentry
  simp only [Option.getD_some, valueNone] at hentry ⊢
  omega

theorem entryKey_fromRows (hi : rows[i]? = some row) :
    (fromRows rows).entryKey ((fromRows rows).offset i) = row.key := by
  obtain ⟨before, after, hdata, hoffset, hkey, -⟩ := exists_entry hsize hi
  rw [hoffset, entryKey_of_append hdata hkey]

theorem probe_eq (hi : rows[i]? = some row) (key : Bytes) :
    compare ((fromRows rows).entryKey ((fromRows rows).offset i)) key = compare row.key key := by
  rw [entryKey_fromRows hsize hi]

theorem exists_row_of_get
    (hget : (fromRows rows).get key = some v) : ∃ (i : ℕ) (row : VersionedRow),
      rows[i]? = some row ∧ row.version ∈ versionsOf rows key ∧
        (fromRows rows).versionAt ((fromRows rows).offset i) = v := by
  obtain ⟨i, hsearch, rfl⟩ := Option.map_eq_some_iff.mp hget
  obtain ⟨-, hlt, hprobe⟩ := BinarySearch.search_eq_some hsearch
  rw [count_fromRows hsize] at hlt
  have hi : rows[i]? = some rows[i] := List.getElem?_eq_getElem hlt
  rw [probe_eq hsize hi] at hprobe
  have hkey : rows[i].key = key := Std.LawfulEqOrd.eq_of_compare hprobe
  refine ⟨i, rows[i], hi, mem_versionsOf.mpr ?_, rfl⟩
  exact hkey ▸ List.getElem_mem hlt

theorem value_of_get
    (hget : (fromRows rows).get key = some v) : ∃ u ∈ versionsOf rows key, v.value = u.value := by
  obtain ⟨i, row, hi, hmem, rfl⟩ := exists_row_of_get hsize hget
  obtain ⟨before, after, hdata, hoffset, hkey, hvalue⟩ := exists_entry hsize hi
  refine ⟨row.version, hmem, ?_⟩
  rw [hoffset, (value_of_append hvalue hdata hkey).1]

end Sized

section Lookup

variable {rows : List VersionedRow} (h : Indexable rows)

include h

theorem get_fromRows_some
    (hget : (fromRows rows).get key = some v) : ∃ u ∈ versionsOf rows key, v = u.stored := by
  obtain ⟨i, row, hi, hmem, rfl⟩ := exists_row_of_get h.size_lt hget
  obtain ⟨before, after, hdata, hoffset, hkey, hvalue⟩ := exists_entry h.size_lt hi
  have hrow := List.mem_of_getElem? hi
  refine ⟨row.version, hmem, ?_⟩
  rw [hoffset, versionAt_of_append hdata hkey hvalue (h.beginTs_lt row hrow) (h.endTs_lt row hrow)]

/-- A miss is definitive. -/
theorem get_fromRows_none (hget : (fromRows rows).get key = none) : versionsOf rows key = [] := by
  have hcount := count_fromRows h.size_lt
  have hsearch := Option.map_eq_none_iff.mp hget
  apply versionsOf_eq_nil
  intro r hr hkey
  obtain ⟨i, hlt, rfl⟩ := List.mem_iff_getElem.mp hr
  have hmono : ∀ a b, a ≤ b → b < (fromRows rows).count → ∃ ra rb,
      rows[a]? = some ra ∧ rows[b]? = some rb ∧ ra.key ≤ rb.key := by
    intro a b hab hb
    rw [hcount] at hb
    refine ⟨rows[a], rows[b], List.getElem?_eq_getElem (by omega), List.getElem?_eq_getElem hb, ?_⟩
    rcases hab.eq_or_lt with rfl | hlt
    · exact le_rfl
    · exact (List.pairwise_iff_getElem.mp h.sorted a b _ hb hlt).key_le
  refine BinarySearch.search_eq_none (i := i) (by omega) ?_ ?_ hsearch (Nat.zero_le i)
    (by rw [hcount]; exact hlt) ?_
  · intro a b hab hb hprobe
    obtain ⟨ra, rb, ha, hb, hle⟩ := hmono a b hab hb
    rw [probe_eq h.size_lt ha, ByteOrder.compare_eq_lt_iff]
    rw [probe_eq h.size_lt hb, ByteOrder.compare_eq_lt_iff] at hprobe
    exact hle.trans_lt hprobe
  · intro a b hab hb hprobe
    obtain ⟨ra, rb, ha, hb, hle⟩ := hmono a b hab hb
    rw [probe_eq h.size_lt hb, Std.OrientedCmp.gt_iff_lt, ByteOrder.compare_eq_lt_iff]
    rw [probe_eq h.size_lt ha, Std.OrientedCmp.gt_iff_lt, ByteOrder.compare_eq_lt_iff] at hprobe
    exact hprobe.trans_le hle
  · rw [probe_eq h.size_lt (List.getElem?_eq_getElem hlt), hkey]
    exact Std.ReflCmp.compare_self

end Lookup

def visible (index : KeyIndex) (key : Bytes) (snapshot : ℕ) : Option VersionedValue :=
  (index.get key).filter (·.visibleAt snapshot)

theorem visible_eq_sstGet_of_single (h : Indexable rows)
    (hlen : (versionsOf rows key).length ≤ 1) (s : ℕ) :
    (fromRows rows).visible key s = sstGet rows key s := by
  rw [sstGet_eq_find?, visible]
  cases hget : (fromRows rows).get key with
  | none => simp [get_fromRows_none h hget]
  | some v =>
    obtain ⟨u, hu, rfl⟩ := get_fromRows_some h hget
    obtain ⟨x, hx⟩ := List.length_eq_one_iff.mp (le_antisymm hlen (List.length_pos_of_mem hu))
    rw [hx] at hu ⊢
    obtain rfl := List.mem_singleton.mp hu
    by_cases hsees : u.visibleAt s = true
    · simp [hsees, Option.filter]
    · simp [hsees, Option.filter]

theorem exists_snapshot_visible_ne_sstGet (h : Indexable rows)
    (hlen : 2 ≤ (versionsOf rows key).length) :
    ∃ s, (fromRows rows).visible key s ≠ sstGet rows key s := by
  have hdesc := h.sorted.descending key
  obtain ⟨⟨upper, hends⟩, hnonempty⟩ := h.contiguous key
  cases hget : (fromRows rows).get key with
  | none =>
    have hnil := get_fromRows_none h hget
    simp [hnil] at hlen
  | some v =>
    obtain ⟨u, hu, rfl⟩ := get_fromRows_some h hget
    obtain ⟨x, hx, hxu⟩ : ∃ x ∈ versionsOf rows key, x ≠ u := by
      rcases hvs : versionsOf rows key with _ | ⟨a, _ | ⟨b, rest⟩⟩
      · simp [hvs] at hlen
      · simp [hvs] at hlen
      · rw [hvs] at hdesc
        have hlt : b.beginTs < a.beginTs := (List.pairwise_cons.mp hdesc).1 b (.head _)
        by_cases ha : a = u
        · refine ⟨b, by simp, ?_⟩
          rintro rfl
          simp [ha] at hlt
        · exact ⟨a, by simp, ha⟩
    refine ⟨x.beginTs, fun heq ↦ hxu ?_⟩
    have hxs : x.visibleAt x.beginTs = true := by
      simpa using hnonempty x hx
    have hfound : ((versionsOf rows key).find? (·.visibleAt x.beginTs)).isSome :=
      List.find?_isSome.mpr ⟨x, hx, hxs⟩
    obtain ⟨y, hy⟩ := Option.isSome_iff_exists.mp hfound
    rw [sstGet_eq_find?, hy, Option.map_some, visible, hget] at heq
    have hus : u.visibleAt x.beginTs = true := by
      by_contra hnot
      simp [Option.filter, hnot] at heq
    exact eq_of_visibleAt hdesc hends hx hu hxs hus

/-- The fast path and the SST lookup agree on a key at every snapshot exactly
when the file holds at most one version of it: with several the binary search
stops at one of them and the snapshots of the others are not served. -/
theorem visible_eq_sstGet_iff {rows : List VersionedRow} (h : Indexable rows) (key : Bytes) :
    (∀ s, (fromRows rows).visible key s = sstGet rows key s) ↔
      (versionsOf rows key).length ≤ 1 := by
  constructor
  · intro hagree
    by_contra hlen
    have hlen : 2 ≤ (versionsOf rows key).length := by omega
    obtain ⟨s, hs⟩ := exists_snapshot_visible_ne_sstGet h hlen
    exact hs (hagree s)
  · exact fun hlen s ↦ visible_eq_sstGet_of_single h hlen s

def overwritten : List VersionedRow :=
  (((∅ : MemTable).applyMutationsBatch 1 [.put [107] [1]] 1).applyMutationsBatch 2
    [.put [107] [2]] 2).drainInto

theorem overwritten_eq : overwritten =
    [⟨[107], ⟨some [2], 2, openEndedTs, 2⟩⟩, ⟨[107], ⟨some [1], 1, 2, 1⟩⟩] := by
  decide

theorem indexable_overwritten : Indexable overwritten := by
  rw [overwritten_eq]
  refine ⟨by unfold SortedRows; decide, fun key ↦ ?_, by decide, by decide, by decide⟩
  by_cases hkey : key = [107]
  · subst hkey
    exact ⟨⟨openEndedTs, by decide⟩, by decide⟩
  · rw [versionsOf_eq_nil (by simp [Ne.symm hkey])]
    exact ⟨⟨0, trivial⟩, by simp⟩

/-- A flush after two commits to one key: the fast path loses the newest
version, which the SST holds. -/
theorem newest_of_overwritten_lost :
    Indexable overwritten ∧ (fromRows overwritten).visible [107] 2 = none ∧
      sstGet overwritten [107] 2 = some ⟨some [2], 2, openEndedTs, 0⟩ :=
  ⟨indexable_overwritten, by decide, by decide⟩

theorem visible_eq_sstGet_iff_overwritten :
    Indexable overwritten ∧
      ¬∀ s, (fromRows overwritten).visible [107] s = sstGet overwritten [107] s := by
  refine ⟨indexable_overwritten, fun hagree ↦ ?_⟩
  have hlen := (visible_eq_sstGet_iff indexable_overwritten [107]).mp hagree
  exact absurd hlen (by decide)

end KeyIndex

end HatP
