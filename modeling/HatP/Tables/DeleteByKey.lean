import HatP.FailedFlush
import HatP.Rows.Ingest
import HatP.Rows.ScalarOrder

/-!
# Deletes by primary key

A delete with one equality for each primary-key column looks its key up: in the memtable
and then in the files, level by level and in each level by ascending id.  The first file
with a visible version decides whether there is a row to delete.  In level 0 this is the
oldest flush and not the newest one.
-/

namespace HatP

open Engine Fallible Transition
open Std (ExtTreeMap ExtTreeSet)

/-! ## The call -/

inductive DeleteError
  | engine (err : EngineError)
  | nullPrimaryKey (err : NullPrimaryKey)
deriving DecidableEq

def ColumnPredicate.isEq {σ : Type*} : ColumnPredicate σ → Bool
  | .eq _ _ => true
  | _ => false

def encodedEq (predicates : List (ColumnPredicate ScalarValue)) (pkIdx : ℕ) : Option Bytes :=
  match predicates.find? fun pred ↦ pred.column = pkIdx && pred.isEq with
  | some (.eq _ value) => encodePkValue value
  | _ => none

def tryExtractPkEqFromPredicates (predicates : List (ColumnPredicate ScalarValue))
    (primaryKey : List String) (schema : List ColumnField) : Option (List Bytes) :=
  if predicates.length ≠ primaryKey.length then none
  else primaryKey.mapM fun pkColName ↦ (indexOf schema pkColName).bind (encodedEq predicates)

def resolvePkColumnsViaSchema (schema : List ColumnField) (primaryKey : List String) :
    Except DeleteError (List (ℕ × String)) :=
  primaryKey.mapM fun column ↦
    match indexOf schema column with
    | some idx => .ok (idx, column)
    | none => .error (.engine
        (.corrupt "resolve_pk_columns_via_schema: primary key column not present in schema"))

def buildPkKeyFromScalars (table : Bytes) (pkColumns : List (ℕ × String))
    (rowScalars : List ScalarValue) : Except DeleteError Bytes := do
  let encodedParts ← pkColumns.mapM fun column ↦
    match rowScalars[column.1]? with
    | some scalar => (pkPart table (column.2, scalar)).mapError .nullPrimaryKey
    | none => .error (.engine
        (.corrupt "build_pk_key_from_scalars: primary-key column index out of range"))
  return assembleTableKey table encodedParts

/-- The keys of the scanned rows that match; `scan` is what the scan of the table returned. -/
def deleteMatching (scan : Except EngineError (List RecordBatch)) (schema : List ColumnField)
    (table : Bytes) (primaryKey : List String) (predicates : List (ColumnPredicate ScalarValue)) :
    Except DeleteError (List Mutation) := do
  let pkColumns ← resolvePkColumnsViaSchema schema primaryKey
  let batches ← scan.mapError .engine
  let rows := (rowsOfBatches batches).map fun row ↦ (row.1.row row.2).map arraySlotToScalar
  let keys ← (rows.filter fun scalars ↦ rowMatches scalars predicates).mapM
    (buildPkKeyFromScalars table pkColumns)
  if keys.isEmpty then .error (.engine .emptyBatch) else .ok (keys.map .delete)

namespace Engine

/-- The first file with a visible version decides. -/
def foundInSst (e : Engine) (key : Bytes) (snapshot : ℕ) : List ℕ → Except EngineError Bool
  | [] => .ok false
  | fileId :: rest =>
    match e.ssts[fileId]? with
    | none => .error (.io "No such file or directory")
    | some file =>
      match sstGet file.rows key snapshot with
      | some version => .ok version.value.isSome
      | none => e.foundInSst key snapshot rest

def deleteKey (e : Engine) (key : Bytes) : Except DeleteError (List Mutation) := do
  let snapshot := e.beginRead.1
  let found ← match e.memtable.get key snapshot with
    | some version => .ok version.value.isSome
    | none => (e.foundInSst key snapshot e.levelFiles).mapError .engine
  if found then .ok [.delete key] else .error (.engine .emptyBatch)

def deleteWithColumnPredicates (e : Engine) (tableSchemas : ExtTreeMap Bytes (List ColumnField))
    (scan : Except EngineError (List RecordBatch)) (table : Bytes) (primaryKey : List String)
    (predicates : List (ColumnPredicate ScalarValue)) : Except DeleteError (List Mutation) :=
  if primaryKey.isEmpty then
    .error (.engine (.corrupt ("delete_with_column_predicates requires a table with a primary " ++
      "key; the legacy row-index fallback encoding was removed")))
  else if predicates.isEmpty then
    .error (.engine (.corrupt ("delete_with_column_predicates: no predicates; full-table " ++
      "DELETE is rejected; use `DELETE WHERE true` explicitly")))
  else
    match tableSchemas[table]? with
    | none => .error (.engine (.corruptMessage
        ("delete_with_column_predicates: no schema registered for table `" ++
          (String.fromUTF8? ⟨table.toArray⟩).getD "" ++ "`")))
    | some schema =>
      match tryExtractPkEqFromPredicates predicates primaryKey schema with
      | some encodedParts => e.deleteKey (assembleTableKey table encodedParts)
      | none => deleteMatching scan schema table primaryKey predicates

/-! ## What decides -/

def NewestIsLive (e : Engine) (key : Bytes) : Prop :=
  ∃ ts value, NewestVisible (e.heldVersions key) e.snapshotTs (ts, some value)

/-- The call deletes the key if its newest visible version is live, and finds nothing to
delete otherwise. -/
structure DecidesByNewest (e : Engine) (key : Bytes)
    (result : Except DeleteError (List Mutation)) : Prop where
  delete_iff : result = .ok [.delete key] ↔ e.NewestIsLive key
  emptyBatch : ¬ e.NewestIsLive key → result = .error (.engine .emptyBatch)

def FileShows (e : Engine) (key : Bytes) (fileId : ℕ) (version : VersionedValue) : Prop :=
  e.IsLive fileId ∧ sstGet (e.rowsOf fileId) key e.snapshotTs = some version

def Earlier (e : Engine) (i j : ℕ) : Prop :=
  e.levelOf i < e.levelOf j ∨ e.levelOf i = e.levelOf j ∧ i < j

/-- The earliest file that shows the key and one with the newest version agree on whether
the key is live. -/
def EarliestAgrees (e : Engine) (key : Bytes) : Prop :=
  ∀ i v j w, e.FileShows key i v → e.FileShows key j w →
    (∀ k u, e.FileShows key k u → k = i ∨ e.Earlier i k) →
    (∀ k u, e.FileShows key k u → u.beginTs ≤ w.beginTs) → v.value.isSome = w.value.isSome

end Engine

/-- One equality of the predicates: the key column, its position and the literal. -/
structure KeyEquality where
  column : String
  idx : ℕ
  value : ScalarValue

/-- The predicates are exactly one equality for each primary-key column, in any order, with
literals that can be in a key. -/
structure ExactlyKey (schema : List ColumnField) (primaryKey : List String)
    (predicates : List (ColumnPredicate ScalarValue)) (equalities : List KeyEquality)
    (encodedParts : List Bytes) : Prop where
  columns : equalities.map KeyEquality.column = primaryKey
  found : ∀ equality ∈ equalities, indexOf schema equality.column = some equality.idx
  distinct : (equalities.map KeyEquality.idx).Nodup
  predicates : predicates.Perm (equalities.map fun equality ↦ .eq equality.idx equality.value)
  encoded : equalities.mapM (fun equality ↦ encodePkValue equality.value) = some encodedParts

/-! ## The key -/

section Key

variable {schema : List ColumnField} {primaryKey : List String}
  {predicates : List (ColumnPredicate ScalarValue)} {equalities : List KeyEquality}
  {encodedParts : List Bytes}

theorem find?_eq_of_unique {α : Type*} {p : α → Bool} {l : List α} {a : α} (ha : a ∈ l)
    (hpa : p a = true) (hunique : ∀ b ∈ l, p b = true → b = a) : l.find? p = some a := by
  obtain ⟨b, hb⟩ := Option.isSome_iff_exists.mp (List.find?_isSome.mpr ⟨a, ha, hpa⟩)
  rw [hb, hunique b (List.mem_of_find?_eq_some hb) (List.find?_some hb)]

section

variable (h : ExactlyKey schema primaryKey predicates equalities encodedParts)

include h

theorem ExactlyKey.encodedEq {equality : KeyEquality} (hmem : equality ∈ equalities) :
    encodedEq predicates equality.idx = encodePkValue equality.value := by
  have hfind : predicates.find? (fun pred ↦ pred.column = equality.idx && pred.isEq) =
      some (.eq equality.idx equality.value) := by
    apply find?_eq_of_unique
    · exact h.predicates.mem_iff.mpr (List.mem_map_of_mem hmem)
    · simp [ColumnPredicate.column, ColumnPredicate.isEq]
    · intro pred hpred hcolumn
      obtain ⟨other, hother, rfl⟩ := List.mem_map.mp (h.predicates.mem_iff.mp hpred)
      have hidx : other.idx = equality.idx := by
        exact of_decide_eq_true (Bool.and_eq_true_iff.mp hcolumn).1
      rw [List.inj_on_of_nodup_map h.distinct hother hmem hidx]
  rw [HatP.encodedEq, hfind]

theorem ExactlyKey.extract :
    tryExtractPkEqFromPredicates predicates primaryKey schema = some encodedParts := by
  have hlength : predicates.length = primaryKey.length := by
    rw [h.predicates.length_eq, ← h.columns, List.length_map, List.length_map]
  rw [tryExtractPkEqFromPredicates, if_neg (not_not.mpr hlength), ← h.columns]
  refine mapM_eq_some_iff.mpr (List.forall₂_map_left_iff.mpr ?_)
  have hencoded := (List.forall₂_and_left _ _).mpr
    ⟨fun _ hmem ↦ hmem, mapM_eq_some_iff.mp h.encoded⟩
  refine hencoded.imp fun equality part hpart ↦ ?_
  rw [h.found equality hpart.1, Option.bind_some, h.encodedEq hpart.1, hpart.2]

theorem ExactlyKey.predicates_ne_nil (hpk : primaryKey ≠ []) : predicates ≠ [] := by
  rintro rfl
  have hnil := List.map_eq_nil_iff.mp (List.nil_perm.mp h.predicates)
  rw [← h.columns, hnil] at hpk
  exact hpk rfl

end

end Key

/-! ## The newest visible version -/

namespace Engine

variable {v : VersionedValue}

variable {e : Engine} {key : Bytes}

theorem Inv.newestIsLive_iff (h : e.Inv) {p : ℕ × Option Bytes}
    (hp : NewestVisible (e.heldVersions key) e.snapshotTs p) :
    e.NewestIsLive key ↔ p.2.isSome = true := by
  have hheld : ∀ {v}, v ∈ e.heldVersions key → v.stamp ∈ e.heldStamps key := by
    rintro v (hv | hv)
    · exact .inl ⟨v, hv, rfl⟩
    · exact .inr ⟨v, hv, rfl⟩
  constructor
  · rintro ⟨ts, value, v, hv, hsees, hstamp, hmax⟩
    obtain ⟨u, hu, husees, rfl, humax⟩ := hp
    have hts : v.beginTs = u.beginTs := le_antisymm (humax v hv hsees) (hmax u hu husees)
    have heq := h.unique key _ (hheld hv) _ (hheld hu) hts
    rw [hstamp] at heq
    rw [← heq]
    rfl
  · intro hsome
    obtain ⟨ts, value⟩ := p
    obtain ⟨value, rfl⟩ := Option.isSome_iff_exists.mp hsome
    exact ⟨ts, value, hp⟩

theorem memtable_get_eq_some_iff (h : e.Inv) {s : ℕ} :
    e.memtable.get key s = some v ↔ v ∈ (e.memtable.chain key).versions ∧ v.visibleAt s = true := by
  rw [MemTable.get_eq_chain_get]
  exact VersionChain.get_eq_some_iff (h.memtable_tiled key)

theorem ReadInv.newestVisible_of_memtable (h : e.ReadInv)
    (hget : e.memtable.get key e.snapshotTs = some v) :
    NewestVisible (e.heldVersions key) e.snapshotTs v.stamp := by
  obtain ⟨hmem, hsees⟩ := (memtable_get_eq_some_iff h.inv).mp hget
  refine ⟨v, .inl hmem, hsees, rfl, ?_⟩
  rintro u (hu | hu) husees
  · have heq := hget.symm.trans ((memtable_get_eq_some_iff h.inv).mpr ⟨hu, husees⟩)
    rw [Option.some.inj heq]
  · exact (h.newer key v.stamp (stamp_mem_stamps hmem) u.stamp ⟨u, hu, rfl⟩).le

theorem Inv.fileShows_of_visible (h : e.Inv) {u : VersionedValue} (hu : u ∈ e.liveVersions key)
    (hsees : u.visibleAt e.snapshotTs = true) : ∃ i, e.FileShows key i u.stored := by
  obtain ⟨i, hi, hmem⟩ := hu
  exact ⟨i, hi, (sstGet_eq_some_iff h hi).mpr ⟨u, hmem, hsees, rfl⟩⟩

theorem Inv.newestVisible_of_fileShows (h : e.Inv)
    (hget : e.memtable.get key e.snapshotTs = none) {j : ℕ} {w : VersionedValue}
    (hshows : e.FileShows key j w) (hmax : ∀ k u, e.FileShows key k u → u.beginTs ≤ w.beginTs) :
    NewestVisible (e.heldVersions key) e.snapshotTs w.stamp := by
  obtain ⟨v, hmem, hsees, rfl⟩ := (sstGet_eq_some_iff h hshows.1).mp hshows.2
  refine ⟨v, .inr ⟨j, hshows.1, hmem⟩, hsees, rfl, ?_⟩
  rintro u (hu | hu) husees
  · have hsome := (memtable_get_eq_some_iff h).mpr ⟨hu, husees⟩
    rw [hget] at hsome
    cases hsome
  · obtain ⟨k, hk⟩ := h.fileShows_of_visible hu husees
    exact hmax k u.stored hk

theorem Inv.not_newestIsLive (h : e.Inv) (hget : e.memtable.get key e.snapshotTs = none)
    (hnone : ∀ k u, ¬ e.FileShows key k u) : ¬ e.NewestIsLive key := by
  rintro ⟨ts, value, u, hu | hu, husees, -⟩
  · have hsome := (memtable_get_eq_some_iff h).mpr ⟨hu, husees⟩
    rw [hget] at hsome
    cases hsome
  · obtain ⟨k, hk⟩ := h.fileShows_of_visible hu husees
    exact hnone k u.stored hk

/-! ## The order of the files -/

theorem Inv.levelFiles_pairwise (h : e.Inv) : e.levelFiles.Pairwise e.Earlier := by
  have hlevel : ∀ level ∈ e.versionSet.levels.toList, ∀ i ∈ level.2.toList,
      e.levelOf i = level.1 := by
    intro level hmem i hi
    have hfiles : i ∈ e.versionSet.files level.1 := by
      rw [VersionSet.files, ExtTreeMap.mem_toList_iff_getElem?_eq_some.mp hmem]
      exact hi
    rw [levelOf, h.versionSet.fileLevelFor_eq hfiles]
    rfl
  refine List.pairwise_flatMap.mpr ⟨fun level hmem ↦ ?_, ?_⟩
  · have hids := ExtTreeSet.ordered_toList (t := level.2)
    refine hids.imp_of_mem fun {i j} hi hj hlt ↦ .inr ⟨?_, Nat.compare_eq_lt.mp hlt⟩
    rw [hlevel level hmem i hi, hlevel level hmem j hj]
  · have hlevels := ExtTreeMap.ordered_keys_toList (t := e.versionSet.levels)
    refine hlevels.imp_of_mem fun {a b} ha hb hlt i hi j hj ↦ .inl ?_
    rw [hlevel a ha i hi, hlevel b hb j hj]
    exact Nat.compare_eq_lt.mp hlt

theorem foundInSst_eq (snapshot : ℕ) {files : List ℕ}
    (hpresent : ∀ i ∈ files, (e.ssts[i]?).isSome = true) :
    e.foundInSst key snapshot files =
      .ok ((files.findSome? fun i ↦ sstGet (e.rowsOf i) key snapshot).any fun version ↦
        version.value.isSome) := by
  induction files with
  | nil => rfl
  | cons i files ih =>
    obtain ⟨hi, hfiles⟩ := List.forall_mem_cons.mp hpresent
    obtain ⟨file, hfile⟩ := Option.isSome_iff_exists.mp hi
    have hrows : e.rowsOf i = file.rows := by
      rw [rowsOf, hfile]
      rfl
    unfold foundInSst
    rw [hfile, List.findSome?_cons, hrows]
    dsimp only
    cases sstGet file.rows key snapshot with
    | some version => rfl
    | none => exact ih hfiles

theorem Inv.earliest_of_findSome? (h : e.Inv)
    (hfirst : e.levelFiles.findSome? (fun i ↦ sstGet (e.rowsOf i) key e.snapshotTs) = some v) :
    ∃ i, e.FileShows key i v ∧ ∀ k u, e.FileShows key k u → k = i ∨ e.Earlier i k := by
  obtain ⟨before, i, after, hfiles, hget, hnone⟩ := List.findSome?_eq_some_iff.mp hfirst
  have hlive : ∀ {k}, k ∈ before ++ i :: after ↔ e.IsLive k := by
    intro k
    rw [← hfiles]
    exact mem_levelFiles
  refine ⟨i, ⟨hlive.mp (List.mem_append_right _ (.head _)), hget⟩, fun k u hk ↦ ?_⟩
  have hsorted := h.levelFiles_pairwise
  rw [hfiles] at hsorted
  rcases List.mem_append.mp (hlive.mpr hk.1) with hbefore | hrest
  · exact absurd (hk.2.symm.trans (hnone k hbefore)) (Option.some_ne_none u)
  · rcases List.mem_cons.mp hrest with rfl | hafter
    · exact .inl rfl
    · exact .inr ((List.pairwise_cons.mp (List.pairwise_append.mp hsorted).2.1).1 k hafter)

theorem exists_newest_fileShows {i : ℕ} (hshows : e.FileShows key i v) :
    ∃ j w, e.FileShows key j w ∧ ∀ k u, e.FileShows key k u → u.beginTs ≤ w.beginTs := by
  let shown := e.levelFiles.filterMap fun i ↦ sstGet (e.rowsOf i) key e.snapshotTs
  have hshown : ∀ {u}, u ∈ shown ↔ ∃ k, e.FileShows key k u := by
    intro u
    simp only [shown, List.mem_filterMap, mem_levelFiles, FileShows]
  cases hmax : shown.argmax VersionedValue.beginTs with
  | none =>
    have hmem : v ∈ shown := hshown.mpr ⟨i, hshows⟩
    rw [List.argmax_eq_none.mp hmax] at hmem
    cases hmem
  | some w =>
    obtain ⟨j, hj⟩ := hshown.mp (List.argmax_mem hmax)
    exact ⟨j, w, hj, fun k u hk ↦ List.le_of_mem_argmax (hshown.mpr ⟨k, hk⟩) hmax⟩

theorem Earlier.eq_of_earliest {i j : ℕ} (hij : j = i ∨ e.Earlier i j)
    (hji : i = j ∨ e.Earlier j i) : i = j := by
  unfold Earlier at hij hji
  omega

/-! ## What the lookup answers -/

theorem decidesByNewest_iff {found : Bool} :
    e.DecidesByNewest key (if found then .ok [.delete key] else .error (.engine .emptyBatch)) ↔
      (found = true ↔ e.NewestIsLive key) := by
  cases found with
  | false =>
    constructor
    · intro h
      rw [← h.delete_iff]
      simp
    · intro h
      exact ⟨by simp [← h], fun _ ↦ rfl⟩
  | true =>
    constructor
    · intro h
      rw [← h.delete_iff]
      simp
    · intro h
      exact ⟨by simp [← h], fun hnot ↦ absurd (h.mp rfl) hnot⟩

theorem deleteKey_of_memtable (hget : e.memtable.get key e.snapshotTs = some v) :
    e.deleteKey key =
      if v.value.isSome then .ok [.delete key] else .error (.engine .emptyBatch) := by
  unfold deleteKey
  rw [beginRead]
  dsimp only
  rw [hget]
  rfl

theorem ReadInv.deleteKey_of_files (h : e.ReadInv) (hget : e.memtable.get key e.snapshotTs = none) :
    e.deleteKey key =
      if (e.levelFiles.findSome? fun i ↦ sstGet (e.rowsOf i) key e.snapshotTs).any
          fun version ↦ version.value.isSome
      then .ok [.delete key] else .error (.engine .emptyBatch) := by
  have hpresent : ∀ i ∈ e.levelFiles, (e.ssts[i]?).isSome = true :=
    fun i hi ↦ h.present i (mem_levelFiles.mp hi)
  unfold deleteKey
  rw [beginRead]
  dsimp only
  rw [hget]
  dsimp only
  rw [foundInSst_eq e.snapshotTs hpresent]
  rfl

theorem ReadInv.deleteKey_decides_iff (h : e.ReadInv) :
    e.DecidesByNewest key (e.deleteKey key) ↔
      (e.memtable.get key e.snapshotTs).isSome = true ∨ e.EarliestAgrees key := by
  cases hget : e.memtable.get key e.snapshotTs with
  | some v =>
    rw [deleteKey_of_memtable hget, decidesByNewest_iff]
    have hnewest := h.inv.newestIsLive_iff (h.newestVisible_of_memtable hget)
    exact iff_of_true hnewest.symm (.inl rfl)
  | none =>
    rw [h.deleteKey_of_files hget, decidesByNewest_iff]
    refine Iff.trans ?_ (or_iff_right Bool.false_ne_true).symm
    cases hfirst : e.levelFiles.findSome? fun i ↦ sstGet (e.rowsOf i) key e.snapshotTs with
    | none =>
      have hnone : ∀ k u, ¬ e.FileShows key k u := by
        intro k u hk
        have hfile := List.findSome?_eq_none_iff.mp hfirst k (mem_levelFiles.mpr hk.1)
        rw [hk.2] at hfile
        cases hfile
      have hnot := h.inv.not_newestIsLive hget hnone
      refine iff_of_true (iff_of_false Bool.false_ne_true hnot) ?_
      intro i v j w hi
      exact absurd hi (hnone i v)
    | some v =>
      obtain ⟨i, hi, hearliest⟩ := h.inv.earliest_of_findSome? hfirst
      have hlive : ∀ {j w}, e.FileShows key j w →
          (∀ k u, e.FileShows key k u → u.beginTs ≤ w.beginTs) →
          (e.NewestIsLive key ↔ w.value.isSome = true) := fun hj hmax ↦
        h.inv.newestIsLive_iff (h.inv.newestVisible_of_fileShows hget hj hmax)
      constructor
      · intro hdecides i' v' j w hi' hj hearliest' hmax
        have hsame : i = i' :=
          Earlier.eq_of_earliest (hearliest i' v' hi') (hearliest' i v hi)
        subst hsame
        have hv : v = v' := Option.some.inj (hi.2.symm.trans hi'.2)
        subst hv
        exact Bool.eq_iff_iff.mpr (hdecides.trans (hlive hj hmax))
      · intro hagrees
        obtain ⟨j, w, hj, hmax⟩ := exists_newest_fileShows hi
        rw [hlive hj hmax, ← hagrees i v j w hi hj hearliest hmax]
        rfl

end Engine

/-- A delete by primary key decides by the newest visible version exactly when the memtable
shows the key or the earliest file that shows it agrees with the newest version. -/
theorem LoggedEngine.delete_decides_iff {ops : List FaultyOp} {st : LoggedEngine}
    (hrun : run faultyStep initial ops = some st)
    {tableSchemas : ExtTreeMap Bytes (List ColumnField)} {table : Bytes}
    {schema : List ColumnField} (hschema : tableSchemas[table]? = some schema)
    {primaryKey : List String} (hpk : primaryKey ≠ [])
    {predicates : List (ColumnPredicate ScalarValue)} {equalities : List KeyEquality}
    {encodedParts : List Bytes}
    (hexact : ExactlyKey schema primaryKey predicates equalities encodedParts)
    (scan : Except EngineError (List RecordBatch)) :
    st.engine.DecidesByNewest (assembleTableKey table encodedParts)
        (st.engine.deleteWithColumnPredicates tableSchemas scan table primaryKey predicates) ↔
      (st.engine.memtable.get (assembleTableKey table encodedParts)
          st.engine.snapshotTs).isSome = true ∨
        st.engine.EarliestAgrees (assembleTableKey table encodedParts) := by
  have hread := readInv_of_run hrun
  have hcall : st.engine.deleteWithColumnPredicates tableSchemas scan table primaryKey predicates =
      st.engine.deleteKey (assembleTableKey table encodedParts) := by
    rw [Engine.deleteWithColumnPredicates, if_neg (mt List.isEmpty_iff.mp hpk),
      if_neg (mt List.isEmpty_iff.mp (hexact.predicates_ne_nil hpk)), hschema]
    dsimp only
    rw [hexact.extract]
  rw [hcall]
  exact hread.deleteKey_decides_iff

/-! ## Two flushes -/

def visitKey : Bytes := [117, 0, 0, 128, 0, 0, 0, 0, 0, 0, 7]

def visitSchemas : ExtTreeMap Bytes (List ColumnField) := {([117], visitBatch.schema)}

def visitPredicates : List (ColumnPredicate ScalarValue) := [.eq 0 (.int64 (some 7))]

def flushedEach (first second : Mutation) : List TableOp :=
  [.call (.write 1 [first]), .call (.flush Engine.plainEnv 1000), .call (.write 2 [second]),
    .call (.flush Engine.plainEnv 1000)]

theorem exactlyKey_visitPredicates : ExactlyKey visitBatch.schema ["id"] visitPredicates
    [⟨"id", 0, .int64 (some 7)⟩] [[128, 0, 0, 0, 0, 0, 0, 7]] where
  columns := rfl
  found := by
    intro equality hmem
    cases List.mem_singleton.mp hmem
    decide
  distinct := List.nodup_singleton 0
  predicates := List.Perm.refl _
  encoded := by decide

theorem getElem?_visitSchemas : visitSchemas[([117] : Bytes)]? = some visitBatch.schema := by
  decide

theorem assembleTableKey_visitKey :
    assembleTableKey [117] [[128, 0, 0, 0, 0, 0, 0, 7]] = visitKey := by
  decide

theorem Engine.heldVersions_eq (e : Engine) (key : Bytes) : e.heldVersions key =
    {v | v ∈ (e.memtable.chain key).versions ++
      e.liveFiles.flatMap fun i ↦ versionsOf (e.rowsOf i) key} := by
  ext v
  rw [heldVersions, liveVersions_eq, Set.mem_ofPred_eq, List.mem_append]
  rfl

namespace LoggedEngine

theorem exists_run_flushedEach {first second : Mutation}
    (hplain : ∀ op ∈ flushedEach first second, op.Plain) :
    ∃ st, run faultyStep initial ((flushedEach first second).map .table) = some st ∧
      st.engine = (flushedEach first second).foldl Engine.execTable Engine.initial := by
  obtain ⟨st, hrun, hengine⟩ := initial.exists_run_plain hplain
  exact ⟨st, run_map (fun _ _ ↦ rfl) hrun, hengine⟩

theorem delete_decides_iff_overwritten :
    ∃ st, run faultyStep initial
        ((flushedEach (.put visitKey [1]) (.put visitKey [2])).map .table) = some st ∧
      st.engine.DecidesByNewest visitKey
        (st.engine.deleteWithColumnPredicates visitSchemas (.ok []) [117] ["id"]
          visitPredicates) := by
  have hplain : ∀ op ∈ flushedEach (.put visitKey [1]) (.put visitKey [2]), op.Plain := by decide
  obtain ⟨st, hrun, hengine⟩ := exists_run_flushedEach hplain
  refine ⟨st, hrun, ?_⟩
  have hlive : ∀ i ∈ st.engine.levelFiles,
      ∀ v ∈ sstGet (st.engine.rowsOf i) visitKey st.engine.snapshotTs, v.value.isSome = true := by
    rw [hengine]
    decide +kernel
  have hdecides := delete_decides_iff hrun getElem?_visitSchemas (List.cons_ne_nil _ _)
    exactlyKey_visitPredicates (.ok [])
  rw [assembleTableKey_visitKey] at hdecides
  refine hdecides.mpr (.inr fun i v j w hi hj _ _ ↦ ?_)
  exact (hlive i (Engine.mem_levelFiles.mpr hi.1) v hi.2).trans
    (hlive j (Engine.mem_levelFiles.mpr hj.1) w hj.2).symm

/-- With two files in level 0 the older one decides: a deleted row is deleted again, and a
row that has been put back is not found. -/
theorem oldest_flush_decides :
    (∃ st, run faultyStep initial
        ((flushedEach (.put visitKey [1]) (.delete visitKey)).map .table) = some st ∧
      ¬ st.engine.NewestIsLive visitKey ∧
      st.engine.deleteWithColumnPredicates visitSchemas (.ok []) [117] ["id"] visitPredicates =
        .ok [.delete visitKey]) ∧
    ∃ st, run faultyStep initial
        ((flushedEach (.delete visitKey) (.put visitKey [1])).map .table) = some st ∧
      st.engine.NewestIsLive visitKey ∧
      st.engine.deleteWithColumnPredicates visitSchemas (.ok []) [117] ["id"] visitPredicates =
        .error (.engine .emptyBatch) := by
  have hplain : ∀ op ∈ flushedEach (.put visitKey [1]) (.delete visitKey), op.Plain := by decide
  have hplain' : ∀ op ∈ flushedEach (.delete visitKey) (.put visitKey [1]), op.Plain := by decide
  obtain ⟨st, hrun, hengine⟩ := exists_run_flushedEach hplain
  obtain ⟨st', hrun', hengine'⟩ := exists_run_flushedEach hplain'
  have hnewest : NewestVisible (st.engine.heldVersions visitKey) st.engine.snapshotTs
      (2, none) := by
    rw [Engine.heldVersions_eq, hengine]
    decide +kernel
  have hnewest' : NewestVisible (st'.engine.heldVersions visitKey) st'.engine.snapshotTs
      (2, some [1]) := by
    rw [Engine.heldVersions_eq, hengine']
    decide +kernel
  refine ⟨⟨st, hrun, ?_, ?_⟩, st', hrun', ⟨2, [1], hnewest'⟩, ?_⟩
  · rw [(readInv_of_run hrun).inv.newestIsLive_iff hnewest]
    exact Bool.false_ne_true
  · rw [hengine]
    decide +kernel
  · rw [hengine']
    decide +kernel

end LoggedEngine

end HatP
