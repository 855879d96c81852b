import HatP.Frontend.Catalog
import HatP.Lib.Fallible

/-!
# Catalog snapshots

A snapshot lists the catalogs, their schemas and their tables.  The qualified name
of a table is not part of its record: it is put together from the names of the
records around it, and the table is validated again.  So a catalog comes back from
its snapshot when every table was created under the name where it is kept.
-/

namespace HatP.Frontend

open Std (ExtTreeMap LawfulEqCmp ReflCmp)

/-! ## Snapshots -/

structure TableRecord where
  name : Bytes
  arrowSchema : ArrowSchema
  primaryKey : List String

structure SchemaRecord where
  name : Bytes
  tables : List TableRecord

structure CatalogRecord where
  name : Bytes
  schemas : List SchemaRecord

structure CatalogSnapshot where
  catalogs : List CatalogRecord

/-- The loop that `apply_snapshot` runs on each of its three levels. -/
def loadEntries {ρ β : Type} (name : ρ → Bytes) (load : ρ → Except SchemaError β)
    (records : List ρ) : Except SchemaError (ExtTreeMap Bytes β) :=
  records.foldlM (fun entries record ↦ do return entries.insert (name record) (← load record)) ∅

def TableRecord.load (qualified : QualifiedName) (record : TableRecord) :
    Except SchemaError TableSchema := do
  let table ← TableSchema.new qualified record.name record.arrowSchema
  if record.primaryKey.isEmpty then return table
  else table.withPrimaryKey record.primaryKey

def SchemaRecord.load (catalog : Bytes) (record : SchemaRecord) : Except SchemaError SchemaEntry :=
  loadEntries TableRecord.name (TableRecord.load ⟨catalog, record.name⟩) record.tables

def CatalogRecord.load (record : CatalogRecord) : Except SchemaError CatalogEntry :=
  loadEntries SchemaRecord.name (SchemaRecord.load record.name) record.schemas

def tableRecord (name : Bytes) (table : TableSchema) : TableRecord :=
  ⟨name, table.arrow, table.primaryKey⟩

def schemaRecord (name : Bytes) (entry : SchemaEntry) : SchemaRecord :=
  ⟨name, entry.toList.map fun entry ↦ tableRecord entry.1 entry.2⟩

def catalogRecord (name : Bytes) (entry : CatalogEntry) : CatalogRecord :=
  ⟨name, entry.toList.map fun entry ↦ schemaRecord entry.1 entry.2⟩

namespace Catalog

def toSnapshot (c : Catalog) : CatalogSnapshot :=
  ⟨c.catalogs.toList.map fun entry ↦ catalogRecord entry.1 entry.2⟩

/-- The answer and the catalog afterwards; the state is replaced at the very end. -/
def applySnapshot (c : Catalog) (snapshot : CatalogSnapshot) : Except CatalogError Unit × Catalog :=
  match loadEntries CatalogRecord.name CatalogRecord.load snapshot.catalogs with
  | .error err => (.error (.schema err), c)
  | .ok catalogs => (.ok (), ⟨catalogs⟩)

def fromSnapshot (snapshot : CatalogSnapshot) : Except CatalogError Catalog :=
  let (answer, c) := new.applySnapshot snapshot
  answer.map fun _ ↦ c

/-! ## Drops -/

/-- A catalog that is not empty is removed and put back. -/
def dropCatalog (c : Catalog) (name : Bytes) : Except CatalogError Unit × Catalog :=
  match c.catalogs[name]? with
  | none => (.error (.unknownCatalog name), c)
  | some entry =>
    let rest := c.catalogs.erase name
    if entry.isEmpty then (.ok (), ⟨rest⟩)
    else (.error (.catalogNotEmpty name), ⟨rest.insert name entry⟩)

/-- A schema that is not empty is removed and put back. -/
def dropSchema (c : Catalog) (catalog schema : Bytes) : Except CatalogError Unit × Catalog :=
  match c.catalogs[catalog]? with
  | none => (.error (.unknownCatalog catalog), c)
  | some entry =>
    match entry[schema]? with
    | none => (.error (.unknownSchema schema catalog), c)
    | some removed =>
      let rest := entry.erase schema
      if removed.isEmpty then (.ok (), ⟨c.catalogs.insert catalog rest⟩)
      else (.error (.schemaNotEmpty schema catalog),
        ⟨c.catalogs.insert catalog (rest.insert schema removed)⟩)

def dropTable (c : Catalog) (qualified : QualifiedName) (name : Bytes) :
    Except CatalogError Unit × Catalog :=
  match c.catalogs[qualified.catalog]? with
  | none => (.error (.unknownCatalog qualified.catalog), c)
  | some entry =>
    match entry[qualified.schema]? with
    | none => (.error (.unknownSchema qualified.schema qualified.catalog), c)
    | some tables =>
      if name ∈ tables then
        (.ok (), ⟨c.catalogs.insert qualified.catalog
          (entry.insert qualified.schema (tables.erase name))⟩)
      else (.error (.unknownTable name qualified.schema), c)

end Catalog

inductive DropOp
  | table (qualified : QualifiedName) (name : Bytes)
  | schema (catalog schema : Bytes)
  | catalog (name : Bytes)

namespace Catalog

def drop (c : Catalog) : DropOp → Except CatalogError Unit × Catalog
  | .table qualified name => c.dropTable qualified name
  | .schema catalog schema => c.dropSchema catalog schema
  | .catalog name => c.dropCatalog name

/-- What the calls can build, including those that fail and those that load the
snapshot of another catalog. -/
inductive Reachable : Catalog → Prop
  | new : Reachable new
  | create {c : Catalog} (h : Reachable c) (op : CatalogOp) : Reachable (c.exec op)
  | drop {c : Catalog} (h : Reachable c) (op : DropOp) : Reachable (c.drop op).2
  | applySnapshot {c saved : Catalog} (h : Reachable c) (hsaved : Reachable saved) :
      Reachable (c.applySnapshot saved.toSnapshot).2

/-! ## Failed drops -/

section Entries

variable {β : Type} {entries : ExtTreeMap Bytes β} {key : Bytes} {value : β}

theorem insert_of_getElem? (h : entries[key]? = some value) :
    entries.insert key value = entries := by
  ext key' found
  rw [ExtTreeMap.getElem?_insert]
  split
  next heq => rw [← LawfulEqCmp.eq_of_compare heq, h]
  next => rfl

theorem insert_erase_of_getElem? (h : entries[key]? = some value) :
    (entries.erase key).insert key value = entries := by
  ext key' found
  rw [ExtTreeMap.getElem?_insert, ExtTreeMap.getElem?_erase]
  split
  next heq => rw [← LawfulEqCmp.eq_of_compare heq, h]
  next => rfl

end Entries

/-- A drop fails and leaves the catalog as it was, or only takes something away. -/
def Drops (c : Catalog) (result : Except CatalogError Unit × Catalog) : Prop :=
  (∃ err, result = (.error err, c)) ∨ ∃ c', result = (.ok (), c') ∧
    ∀ qualified name table, c'.tableSchema qualified name = some table →
      c.tableSchema qualified name = some table

variable {qualified : QualifiedName} {table : TableSchema}

theorem drops_dropCatalog (c : Catalog) (name : Bytes) : c.Drops (c.dropCatalog name) := by
  rw [dropCatalog]
  cases hentry : c.catalogs[name]? with
  | none => exact .inl ⟨_, rfl⟩
  | some entry =>
    dsimp only
    split
    · refine .inr ⟨_, rfl, fun qualified table found hfound ↦ ?_⟩
      rw [tableSchema, ExtTreeMap.getElem?_erase] at hfound
      split at hfound
      · cases hfound
      · exact hfound
    · rw [insert_erase_of_getElem? hentry]
      exact .inl ⟨_, rfl⟩

theorem drops_dropSchema (c : Catalog) (catalog schema : Bytes) :
    c.Drops (c.dropSchema catalog schema) := by
  rw [dropSchema]
  cases hentry : c.catalogs[catalog]? with
  | none => exact .inl ⟨_, rfl⟩
  | some entry =>
    dsimp only
    cases hschema : entry[schema]? with
    | none => exact .inl ⟨_, rfl⟩
    | some removed =>
      dsimp only
      split
      · refine .inr ⟨_, rfl, fun qualified table found hfound ↦ ?_⟩
        rw [tableSchema_insert, ExtTreeMap.getElem?_erase] at hfound
        split at hfound
        next hcatalog =>
          split at hfound
          · cases hfound
          · rw [tableSchema, ← hcatalog, hentry]
            exact hfound
        next => exact hfound
      · rw [insert_erase_of_getElem? hschema, insert_of_getElem? hentry]
        exact .inl ⟨_, rfl⟩

theorem drops_dropTable (c : Catalog) (qualified : QualifiedName) (name : Bytes) :
    c.Drops (c.dropTable qualified name) := by
  rw [dropTable]
  cases hentry : c.catalogs[qualified.catalog]? with
  | none => exact .inl ⟨_, rfl⟩
  | some entry =>
    dsimp only
    cases htables : entry[qualified.schema]? with
    | none => exact .inl ⟨_, rfl⟩
    | some tables =>
      dsimp only
      split
      · refine .inr ⟨_, rfl, fun qualified' table found hfound ↦ ?_⟩
        have hcatalog : c.catalogs[qualified.catalog]?.getD ∅ = entry := by
          rw [hentry, Option.getD_some]
        rw [← hcatalog, tableSchema_store] at hfound
        split at hfound
        next heq =>
          rw [ExtTreeMap.getElem?_erase] at hfound
          split at hfound
          · cases hfound
          · rw [heq, tableSchema, hentry, Option.bind_some, htables, Option.bind_some]
            exact hfound
        next => exact hfound
      · exact .inl ⟨_, rfl⟩

theorem drops_drop (c : Catalog) (op : DropOp) : c.Drops (c.drop op) := by
  cases op with
  | table qualified name => exact c.drops_dropTable qualified name
  | schema catalog schema => exact c.drops_dropSchema catalog schema
  | catalog name => exact c.drops_dropCatalog name

/-! ## Round trips -/

section Entries

variable {ρ β : Type} {name : ρ → Bytes} {load : ρ → Except SchemaError β} {save : Bytes → β → ρ}

theorem foldlM_loadEntries (hname : ∀ key value, name (save key value) = key)
    (entries : List (Bytes × β)) (start : ExtTreeMap Bytes β)
    (hload : ∀ entry ∈ entries, load (save entry.1 entry.2) = .ok entry.2) :
    (entries.map fun entry ↦ save entry.1 entry.2).foldlM (fun entries record ↦ do
        return entries.insert (name record) (← load record)) start =
      .ok (entries.foldl (fun entries entry ↦ entries.insert entry.1 entry.2) start) := by
  induction entries generalizing start with
  | nil => rfl
  | cons entry entries ih =>
    obtain ⟨hfirst, hrest⟩ := List.forall_mem_cons.mp hload
    rw [List.map_cons, List.foldlM_cons, hfirst, hname, List.foldl_cons, ← ih _ hrest]
    rfl

theorem loadEntries_toList (hname : ∀ key value, name (save key value) = key)
    {entries : ExtTreeMap Bytes β}
    (hload : ∀ key value, entries[key]? = some value → load (save key value) = .ok value) :
    loadEntries name load (entries.toList.map fun entry ↦ save entry.1 entry.2) = .ok entries := by
  rw [loadEntries, foldlM_loadEntries hname]
  · rw [← ExtTreeMap.ofList_eq_foldl]
    congr 1
    ext key value
    cases hkey : entries[key]? with
    | none =>
      rw [ExtTreeMap.getElem?_ofList_of_contains_eq_false]
      rw [ExtTreeMap.map_fst_toList_eq_keys, ExtTreeMap.contains_keys,
        ExtTreeMap.contains_eq_isSome_getElem?, hkey, Option.isSome_none]
    | some found =>
      have hmem := ExtTreeMap.mem_toList_iff_getElem?_eq_some.mpr hkey
      rw [ExtTreeMap.getElem?_ofList_of_mem ReflCmp.compare_self
        ExtTreeMap.distinct_keys_toList hmem]
  · intro entry hentry
    exact hload _ _ (ExtTreeMap.mem_toList_iff_getElem?_eq_some.mp hentry)

end Entries

theorem eq_of_new {name : Bytes} {arrow : ArrowSchema}
    (h : TableSchema.new qualified name arrow = .ok table) :
    table = ⟨qualified, name, arrow, []⟩ := by
  obtain ⟨_, -, hcheck⟩ := Fallible.bind_eq_ok h
  split at hcheck
  · cases hcheck
  · exact (Except.ok.inj hcheck).symm

theorem eq_of_withPrimaryKey {schema : TableSchema} {columns : List String}
    (h : schema.withPrimaryKey columns = .ok table) :
    table = { schema with primaryKey := columns } := by
  rw [TableSchema.withPrimaryKey] at h
  split at h
  · cases h
  · exact (Except.ok.inj h).symm

theorem eq_of_intoSchema {ddl : CreateTable} (h : ddl.intoSchema = .ok table) :
    table = ⟨ddl.qualified, ddl.name, ddl.arrow, ddl.primaryKey⟩ := by
  obtain ⟨new, hnew, hkey⟩ := Fallible.bind_eq_ok h
  rw [eq_of_withPrimaryKey hkey, eq_of_new hnew]

theorem load_tableRecord {name : Bytes}
    (h : (CreateTable.mk qualified name table.arrow table.primaryKey).intoSchema = .ok table) :
    (tableRecord name table).load qualified = .ok table := by
  obtain ⟨new, hnew, hkey⟩ := Fallible.bind_eq_ok h
  dsimp only at hnew hkey
  dsimp only [TableRecord.load, tableRecord]
  rw [hnew]
  change (if table.primaryKey.isEmpty then Except.ok new else _) = _
  split
  next hempty =>
    rw [eq_of_intoSchema h, eq_of_new hnew, List.isEmpty_iff.mp hempty]
  next => exact hkey

/-- The statement that creates the table gives it back. -/
def Rebuilds (c : Catalog) : Prop :=
  ∀ qualified name table, c.tableSchema qualified name = some table →
    (CreateTable.mk qualified name table.arrow table.primaryKey).intoSchema = .ok table

variable {c : Catalog}

theorem Rebuilds.applySnapshot (h : c.Rebuilds) (c₀ : Catalog) :
    c₀.applySnapshot c.toSnapshot = (.ok (), c) := by
  have hload : loadEntries CatalogRecord.name CatalogRecord.load c.toSnapshot.catalogs =
      .ok c.catalogs := by
    apply loadEntries_toList fun _ _ ↦ rfl
    intro catalog entry hentry
    apply loadEntries_toList fun _ _ ↦ rfl
    intro schema tables htables
    apply loadEntries_toList fun _ _ ↦ rfl
    intro name table htable
    apply load_tableRecord
    apply h ⟨catalog, schema⟩ name table
    rw [tableSchema, hentry, Option.bind_some, htables, Option.bind_some]
    exact htable
  rw [Catalog.applySnapshot, hload]

theorem Rebuilds.exec (h : c.Rebuilds) (op : CatalogOp) : (c.exec op).Rebuilds := by
  intro qualified name table hfound
  rcases tableSchema_exec hfound with hold | ⟨ddl, hddl, rfl, rfl⟩
  · exact h qualified name table hold
  · have hsame : CreateTable.mk table.qualified table.name table.arrow table.primaryKey = ddl := by
      rw [eq_of_intoSchema hddl]
    rwa [hsame]

theorem Reachable.rebuilds (h : c.Reachable) : c.Rebuilds := by
  induction h with
  | new =>
    intro qualified name table hfound
    simp [tableSchema, Catalog.new] at hfound
  | create _ op ih => exact ih.exec op
  | @drop c _ op ih =>
    rcases c.drops_drop op with ⟨err, hfailed⟩ | ⟨c', hdropped, hsub⟩
    · rwa [hfailed]
    · rw [hdropped]
      exact fun qualified name table hfound ↦ ih _ _ _ (hsub _ _ _ hfound)
  | @applySnapshot c saved _ _ _ ihsaved =>
    rwa [ihsaved.applySnapshot c]

/-- A reachable catalog comes back from its snapshot, and a drop that fails leaves
it as it was. -/
theorem snapshot_lossless (h : c.Reachable) :
    fromSnapshot c.toSnapshot = .ok c ∧
      ∀ op err, (c.drop op).1 = .error err → (c.drop op).2 = c := by
  refine ⟨?_, fun op err herr ↦ ?_⟩
  · rw [fromSnapshot, h.rebuilds.applySnapshot]
    rfl
  · rcases c.drops_drop op with ⟨_, hfailed⟩ | ⟨c', hdropped, -⟩
    · rw [hfailed]
    · rw [hdropped] at herr
      cases herr

def visitTable : CreateTable where
  qualified := ⟨[104], [97]⟩
  name := [116]
  arrow := ⟨[⟨⟨"id", false⟩, .int64, []⟩, ⟨⟨"name", true⟩, .utf8, []⟩], [("owner", "u")]⟩
  primaryKey := ["id"]

/-- Of three schemas an empty one is dropped, and an earlier snapshot is loaded. -/
def visits : Catalog :=
  let created := ((new.exec (.createTable visitTable)).exec (.createSchema [104] [98])).exec
    (.createSchema [104] [99])
  let dropped := (created.drop (.schema [104] [99])).2
  (new.applySnapshot dropped.toSnapshot).2

theorem snapshot_lossless_visits :
    (visits.drop (.schema [104] [97])).1 = .error (.schemaNotEmpty [97] [104]) ∧
      (visits.drop (.schema [104] [97])).2 = visits ∧
      fromSnapshot visits.toSnapshot = .ok visits := by
  have hcreated := ((Reachable.new.create (.createTable visitTable)).create
    (.createSchema [104] [98])).create (.createSchema [104] [99])
  have hvisits : visits.Reachable := .applySnapshot .new (hcreated.drop (.schema [104] [99]))
  have hfailed : (visits.drop (.schema [104] [97])).1 = .error (.schemaNotEmpty [97] [104]) := by
    decide +kernel
  obtain ⟨hsnapshot, hunchanged⟩ := snapshot_lossless hvisits
  exact ⟨hfailed, hunchanged _ _ hfailed, hsnapshot⟩

end Catalog

end HatP.Frontend
