import HatP.Memtable

/-!
# Rows of an SST

An SST stores rows by key, the versions of one key newest first.  The format
keeps no transaction id, so a row read back carries id zero.
-/

namespace HatP

open Newest

def RowBefore (a b : VersionedRow) : Prop :=
  a.key < b.key ∨ a.key = b.key ∧ b.version.beginTs < a.version.beginTs

theorem RowBefore.trans {a b c : VersionedRow} (hab : RowBefore a b) (hbc : RowBefore b c) :
    RowBefore a c := by
  rcases hab with hab | ⟨hab, hab'⟩ <;> rcases hbc with hbc | ⟨hbc, hbc'⟩
  · exact Or.inl (hab.trans hbc)
  · exact Or.inl (hbc ▸ hab)
  · exact Or.inl (hab ▸ hbc)
  · exact Or.inr ⟨hab.trans hbc, hbc'.trans hab'⟩

instance : IsTrans VersionedRow RowBefore := ⟨fun _ _ _ ↦ RowBefore.trans⟩

theorem RowBefore.key_le {a b : VersionedRow} (h : RowBefore a b) : a.key ≤ b.key := by
  rcases h with h | h
  · exact h.le
  · exact h.1.le

instance : DecidableRel RowBefore := fun a b ↦
  inferInstanceAs
    (Decidable (a.key < b.key ∨ a.key = b.key ∧ b.version.beginTs < a.version.beginTs))

def SortedRows (rows : List VersionedRow) : Prop :=
  rows.Pairwise RowBefore

def versionsOf (rows : List VersionedRow) (key : Bytes) : List VersionedValue :=
  (rows.filter fun r ↦ decide (r.key = key)).map VersionedRow.version

def VersionedValue.stored (v : VersionedValue) : VersionedValue :=
  { v with txId := 0 }

@[simp] theorem VersionedValue.stored_visibleAt (v : VersionedValue) (s : ℕ) :
    v.stored.visibleAt s = v.visibleAt s := rfl

def readAll (rows : List VersionedRow) : List VersionedRow :=
  rows.map fun r ↦ ⟨r.key, r.version.stored⟩

def sstGet (rows : List VersionedRow) (key : Bytes) (snapshot : ℕ) : Option VersionedValue :=
  (rows.find? fun r ↦ decide (r.key = key) && r.version.visibleAt snapshot).map
    (·.version.stored)

def TiledRows (rows : List VersionedRow) : Prop :=
  ∀ key, EndsFrom openEndedTs (versionsOf rows key)

def Contiguous (vs : List VersionedValue) : Prop :=
  (∃ upper, EndsFrom upper vs) ∧ ∀ v ∈ vs, v.beginTs < v.endTs

/-! ## Versions of one key -/

@[simp] theorem versionsOf_nil (key : Bytes) : versionsOf [] key = [] := rfl

theorem versionsOf_cons (r : VersionedRow) (rows : List VersionedRow) (key : Bytes) :
    versionsOf (r :: rows) key =
      if r.key = key then r.version :: versionsOf rows key else versionsOf rows key := by
  by_cases h : r.key = key <;> simp [versionsOf, h]

theorem versionsOf_append (rows rows' : List VersionedRow) (key : Bytes) :
    versionsOf (rows ++ rows') key = versionsOf rows key ++ versionsOf rows' key := by
  simp [versionsOf]

variable {key : Bytes} {rows : List VersionedRow}

theorem mem_versionsOf {v : VersionedValue} : v ∈ versionsOf rows key ↔ ⟨key, v⟩ ∈ rows := by
  constructor
  · intro h
    obtain ⟨r, hr, rfl⟩ := List.mem_map.mp h
    obtain ⟨hr, hk⟩ := List.mem_filter.mp hr
    have hk : r.key = key := by simpa using hk
    exact hk ▸ hr
  · intro h
    exact List.mem_map.mpr ⟨⟨key, v⟩, List.mem_filter.mpr ⟨h, by simp⟩, rfl⟩

theorem versionsOf_eq_nil (h : ∀ r ∈ rows, r.key ≠ key) : versionsOf rows key = [] := by
  refine List.eq_nil_iff_forall_not_mem.mpr fun v hv ↦ ?_
  exact h _ (mem_versionsOf.mp hv) rfl

theorem SortedRows.descending (h : SortedRows rows) (key : Bytes) :
    Descending (versionsOf rows key) := by
  refine List.pairwise_map.mpr ?_
  refine List.Pairwise.imp_of_mem ?_ (h.filter _)
  intro a b ha hb hab
  have hka : a.key = key := by simpa using (List.mem_filter.mp ha).2
  have hkb : b.key = key := by simpa using (List.mem_filter.mp hb).2
  rcases hab with hlt | hlt
  · exact absurd hlt (by simp [hka, hkb])
  · exact hlt.2

@[simp] theorem versionsOf_readAll (rows : List VersionedRow) (key : Bytes) :
    versionsOf (readAll rows) key = (versionsOf rows key).map VersionedValue.stored := by
  induction rows with
  | nil => rfl
  | cons r rows ih =>
    have hcons : readAll (r :: rows) = ⟨r.key, r.version.stored⟩ :: readAll rows := rfl
    rw [hcons, versionsOf_cons, versionsOf_cons, ih]
    split_ifs <;> rfl

theorem sstGet_eq_find? (rows : List VersionedRow) (key : Bytes) (s : ℕ) :
    sstGet rows key s = ((versionsOf rows key).find? (·.visibleAt s)).map (·.stored) := by
  induction rows with
  | nil => rfl
  | cons r rows ih =>
    rw [versionsOf_cons]
    by_cases hk : r.key = key
    · by_cases hv : r.version.visibleAt s = true
      · simp [sstGet, hk, hv]
      · rw [if_pos hk, List.find?_cons_of_neg (by simpa using hv), ← ih]
        simp [sstGet, hk, hv]
    · rw [if_neg hk, ← ih]
      simp [sstGet, hk]

theorem sstGet_isNewestAt {s : ℕ}
    {v : VersionedValue} (hsorted : SortedRows rows) (htiled : TiledRows rows)
    (hs : s < openEndedTs) (h : sstGet rows key s = some v) :
    ∃ u, v = u.stored ∧ IsNewestAt VersionedValue.beginTs {x | x ∈ versionsOf rows key} s u := by
  rw [sstGet_eq_find?, find?_visibleAt hs (htiled key)] at h
  obtain ⟨u, hu, rfl⟩ := Option.map_eq_some_iff.mp h
  exact ⟨u, rfl, isNewestAt_of_find? (hsorted.descending key) hu⟩

theorem sstGet_eq_none_iff {s : ℕ} (htiled : TiledRows rows) (hs : s < openEndedTs) :
    sstGet rows key s = none ↔ ∀ v ∈ versionsOf rows key, s < v.beginTs := by
  rw [sstGet_eq_find?, find?_visibleAt hs (htiled key)]
  simp

/-! ## What a flush writes -/

theorem versionsOf_entry (key : Bytes) (vs : List VersionedValue) (k : Bytes) :
    versionsOf (vs.map (VersionedRow.mk key)) k = if key = k then vs else [] := by
  induction vs with
  | nil => simp
  | cons v vs ih =>
    rw [List.map_cons, versionsOf_cons, ih]
    split_ifs <;> rfl

theorem versionsOf_entries {entries : List (Bytes × VersionChain)}
    {c : VersionChain} (hsorted : entries.Pairwise fun a b ↦ a.1 < b.1) (hc : (key, c) ∈ entries) :
    versionsOf (entries.flatMap fun e ↦ e.2.versions.map (VersionedRow.mk e.1)) key =
      c.versions := by
  induction entries with
  | nil => simp at hc
  | cons e entries ih =>
    obtain ⟨hlt, hrest⟩ := List.pairwise_cons.mp hsorted
    rw [List.flatMap_cons, versionsOf_append, versionsOf_entry]
    rcases List.mem_cons.mp hc with rfl | hc
    · have hnil : versionsOf
          (entries.flatMap fun e ↦ e.2.versions.map (VersionedRow.mk e.1)) key = [] := by
        apply versionsOf_eq_nil
        intro r hr
        obtain ⟨e, he, hr⟩ := List.mem_flatMap.mp hr
        obtain ⟨v, -, rfl⟩ := List.mem_map.mp hr
        exact (hlt e he).ne'
      rw [if_pos rfl, hnil, List.append_nil]
    · rw [if_neg (hlt _ hc).ne, ih hrest hc, List.nil_append]

namespace MemTable

theorem toList_pairwise (table : MemTable) : table.toList.Pairwise fun a b ↦ a.1 < b.1 :=
  table.ordered_keys_toList.imp fun h ↦ (ByteOrder.compare_eq_lt_iff _ _).mp h

theorem versionsOf_drainInto (table : MemTable) (key : Bytes) :
    versionsOf table.drainInto key = (table.chain key).versions := by
  unfold drainInto chain
  cases hentry : table[key]? with
  | some c =>
    exact versionsOf_entries table.toList_pairwise
      (Std.ExtTreeMap.mem_toList_iff_getElem?_eq_some.mpr hentry)
  | none =>
    apply versionsOf_eq_nil
    intro r hr
    obtain ⟨e, he, hr⟩ := List.mem_flatMap.mp hr
    obtain ⟨v, -, rfl⟩ := List.mem_map.mp hr
    rintro rfl
    have hsome := Std.ExtTreeMap.mem_toList_iff_getElem?_eq_some.mp he
    exact absurd (hentry.symm.trans hsome) (by simp)

theorem sorted_drainInto (table : MemTable) : SortedRows table.drainInto := by
  apply List.pairwise_flatMap.mpr
  refine ⟨fun e _ ↦ ?_, table.toList_pairwise.imp fun {e e'} hlt ↦ ?_⟩
  · exact List.pairwise_map.mpr (e.2.descending.imp fun h ↦ Or.inr ⟨rfl, h⟩)
  · intro r hr r' hr'
    obtain ⟨v, -, rfl⟩ := List.mem_map.mp hr
    obtain ⟨v', -, rfl⟩ := List.mem_map.mp hr'
    exact Or.inl hlt

theorem Tiled.drainInto {table : MemTable} (h : table.Tiled) : TiledRows table.drainInto := by
  intro key
  rw [versionsOf_drainInto]
  exact h key

theorem drainInto_eq_nil_iff (table : MemTable) :
    table.drainInto = [] ↔ ∀ key, (table.chain key).versions = [] := by
  constructor
  · intro h key
    rw [← versionsOf_drainInto, h, versionsOf_nil]
  · intro h
    refine List.eq_nil_iff_forall_not_mem.mpr fun r hr ↦ ?_
    have hmem : r.version ∈ versionsOf table.drainInto r.key := mem_versionsOf.mpr hr
    rw [versionsOf_drainInto, h r.key] at hmem
    exact List.not_mem_nil hmem

end MemTable

end HatP
