import HatP.Rows.Scalar
import HatP.Tables.Predicate

/-!
# The catalog

Tables live in schemas and schemas in catalogs.  A table is found under its
catalog, its schema and its name; names are the bytes of their text and are not
restricted.
-/

namespace HatP.Frontend

/-! ## Schemas -/

structure QualifiedName where
  catalog : Bytes
  schema : Bytes
deriving DecidableEq

inductive SchemaError
  | emptySchema
  | unknownColumn (column : String)
  | duplicateColumn (column : String)
deriving DecidableEq

structure ArrowField extends Field where
  dataType : DataType
  metadata : List (String × String)
deriving DecidableEq

structure ArrowSchema where
  fields : List ArrowField
  metadata : List (String × String)
deriving DecidableEq

/-- The logical description of a table. -/
structure TableSchema where
  qualified : QualifiedName
  name : Bytes
  arrow : ArrowSchema
  primaryKey : List String
deriving DecidableEq

namespace TableSchema

def validateUniqueColumns : List String → List ArrowField → Except SchemaError Unit
  | _, [] => .ok ()
  | seen, field :: fields =>
    if field.name ∈ seen then .error (.duplicateColumn field.name)
    else validateUniqueColumns (field.name :: seen) fields

def new (qualified : QualifiedName) (name : Bytes) (arrow : ArrowSchema) :
    Except SchemaError TableSchema := do
  validateUniqueColumns [] arrow.fields
  if arrow.fields.isEmpty then .error .emptySchema
  else return ⟨qualified, name, arrow, []⟩

def withPrimaryKey (schema : TableSchema) (columns : List String) :
    Except SchemaError TableSchema :=
  match columns.find? fun column ↦ !schema.arrow.fields.any fun field ↦ field.name == column with
  | some column => .error (.unknownColumn column)
  | none => .ok { schema with primaryKey := columns }

end TableSchema

structure CreateTable where
  qualified : QualifiedName
  name : Bytes
  arrow : ArrowSchema
  primaryKey : List String

def CreateTable.intoSchema (ddl : CreateTable) : Except SchemaError TableSchema :=
  (TableSchema.new ddl.qualified ddl.name ddl.arrow).bind fun table ↦
    table.withPrimaryKey ddl.primaryKey

/-! ## The catalog -/

inductive CatalogError
  | tableExists (table schema : Bytes)
  | unknownTable (table schema : Bytes)
  | catalogAlreadyExists (catalog : Bytes)
  | catalogNotEmpty (catalog : Bytes)
  | schemaExists (schema catalog : Bytes)
  | unknownSchema (schema catalog : Bytes)
  | unknownCatalog (catalog : Bytes)
  | schemaNotEmpty (schema catalog : Bytes)
  | schema (err : SchemaError)
deriving DecidableEq

abbrev SchemaEntry := Std.ExtTreeMap Bytes TableSchema

abbrev CatalogEntry := Std.ExtTreeMap Bytes SchemaEntry

structure Catalog where
  catalogs : Std.ExtTreeMap Bytes CatalogEntry

namespace Catalog

def new : Catalog := ⟨∅⟩

def createCatalog (c : Catalog) (name : Bytes) : Except CatalogError Catalog :=
  if name ∈ c.catalogs then .error (.catalogAlreadyExists name)
  else .ok ⟨c.catalogs.insert name ∅⟩

/-- The catalog is created if there is none. -/
def createSchema (c : Catalog) (catalog schema : Bytes) : Except CatalogError Catalog :=
  let entry := c.catalogs[catalog]?.getD ∅
  if schema ∈ entry then .error (.schemaExists schema catalog)
  else .ok ⟨c.catalogs.insert catalog (entry.insert schema ∅)⟩

/-- The catalog and the schema are created if there are none. -/
def createTable (c : Catalog) (ddl : CreateTable) : Except CatalogError Catalog :=
  match ddl.intoSchema with
  | .error err => .error (.schema err)
  | .ok schema =>
    let catEntry := c.catalogs[schema.qualified.catalog]?.getD ∅
    let schemaEntry := catEntry[schema.qualified.schema]?.getD ∅
    if schema.name ∈ schemaEntry then .error (.tableExists schema.name schema.qualified.schema)
    else .ok ⟨c.catalogs.insert schema.qualified.catalog
      (catEntry.insert schema.qualified.schema (schemaEntry.insert schema.name schema))⟩

def tableSchema (c : Catalog) (qualified : QualifiedName) (name : Bytes) : Option TableSchema :=
  (c.catalogs[qualified.catalog]?.bind fun entry ↦ entry[qualified.schema]?).bind
    fun entry ↦ entry[name]?

end Catalog

inductive CatalogOp
  | createCatalog (name : Bytes)
  | createSchema (catalog schema : Bytes)
  | createTable (ddl : CreateTable)

namespace Catalog

variable {catalog : Bytes} {c' : Catalog}

/-- A call that returns an error changes nothing: an entry that is missing makes
the call succeed. -/
def exec (c : Catalog) : CatalogOp → Catalog
  | .createCatalog name => (c.createCatalog name).toOption.getD c
  | .createSchema catalog schema => (c.createSchema catalog schema).toOption.getD c
  | .createTable ddl => (c.createTable ddl).toOption.getD c

/-! ## Reachable catalogs -/

variable {c : Catalog} {qualified : QualifiedName} {name : Bytes} {table : TableSchema}

def NamesTables (c : Catalog) : Prop :=
  ∀ qualified name table, c.tableSchema qualified name = some table →
    table.qualified = qualified ∧ table.name = name

theorem tableSchema_insert {entry : CatalogEntry} :
    tableSchema ⟨c.catalogs.insert catalog entry⟩ qualified name =
      if catalog = qualified.catalog then entry[qualified.schema]?.bind fun entry ↦ entry[name]?
      else c.tableSchema qualified name := by
  rw [tableSchema, Std.ExtTreeMap.getElem?_insert]
  simp only [Std.LawfulEqCmp.compare_eq_iff_eq]
  split <;> rfl

theorem tableSchema_eq (c : Catalog) (qualified : QualifiedName) (name : Bytes) :
    c.tableSchema qualified name =
      (c.catalogs[qualified.catalog]?.getD ∅)[qualified.schema]?.bind fun entry ↦ entry[name]? := by
  rw [tableSchema]
  cases c.catalogs[qualified.catalog]? with
  | none => simp
  | some entry => rfl

theorem tableSchema_store {schema : Bytes} {tables : SchemaEntry} :
    tableSchema ⟨c.catalogs.insert catalog
        ((c.catalogs[catalog]?.getD ∅).insert schema tables)⟩ qualified name =
      if qualified = ⟨catalog, schema⟩ then tables[name]? else c.tableSchema qualified name := by
  rw [tableSchema_insert, tableSchema_eq]
  obtain ⟨catalog', schema'⟩ := qualified
  by_cases hcatalog : catalog = catalog'
  · subst hcatalog
    rw [if_pos rfl, Std.ExtTreeMap.getElem?_insert]
    by_cases hschema : schema = schema'
    · subst hschema
      simp
    · simp [hschema, Ne.symm hschema]
  · rw [if_neg hcatalog, if_neg fun h ↦ hcatalog (QualifiedName.mk.inj h).1.symm]

theorem tableSchema_createCatalog {id : Bytes} (hcreate : c.createCatalog id = .ok c')
    (hfound : c'.tableSchema qualified name = some table) :
    c.tableSchema qualified name = some table := by
  rw [Catalog.createCatalog] at hcreate
  split at hcreate
  · cases hcreate
  · cases hcreate
    rw [tableSchema_insert] at hfound
    split at hfound
    · simp at hfound
    · exact hfound

theorem tableSchema_createSchema {schema : Bytes} (hcreate : c.createSchema catalog schema = .ok c')
    (hfound : c'.tableSchema qualified name = some table) :
    c.tableSchema qualified name = some table := by
  dsimp only [Catalog.createSchema] at hcreate
  split at hcreate
  · cases hcreate
  · cases hcreate
    rw [tableSchema_store] at hfound
    split at hfound
    · simp at hfound
    · exact hfound

theorem tableSchema_createTable {ddl : CreateTable} (hcreate : c.createTable ddl = .ok c')
    (hfound : c'.tableSchema qualified name = some table) :
    c.tableSchema qualified name = some table ∨
      ddl.intoSchema = .ok table ∧ table.qualified = qualified ∧ table.name = name := by
  rw [Catalog.createTable] at hcreate
  split at hcreate
  · cases hcreate
  next schema hschema =>
    dsimp only at hcreate
    split at hcreate
    · cases hcreate
    · cases hcreate
      rw [tableSchema_store] at hfound
      split at hfound
      next heq =>
        rw [Std.ExtTreeMap.getElem?_insert] at hfound
        split at hfound
        next hname =>
          cases hfound
          exact .inr ⟨hschema, heq.symm, Std.LawfulEqCmp.eq_of_compare hname⟩
        next =>
          refine .inl ?_
          rw [tableSchema_eq, heq]
          cases hentry :
              (c.catalogs[schema.qualified.catalog]?.getD ∅)[schema.qualified.schema]? with
          | none => simp [hentry] at hfound
          | some entry => simpa [hentry] using hfound
      next => exact .inl hfound

/-- A table that a call leaves behind was there before, or the call has created it. -/
theorem tableSchema_exec {op : CatalogOp}
    (hfound : (c.exec op).tableSchema qualified name = some table) :
    c.tableSchema qualified name = some table ∨ ∃ ddl : CreateTable,
      ddl.intoSchema = .ok table ∧ table.qualified = qualified ∧ table.name = name := by
  have hcases : ∀ result : Except CatalogError Catalog, c.exec op = result.toOption.getD c →
      c.exec op = c ∨ result = .ok (c.exec op) := by
    rintro (err | c') h
    · exact .inl h
    · exact .inr (congrArg _ h.symm)
  cases op with
  | createCatalog id =>
    rcases hcases _ rfl with heq | hcreate
    · exact .inl (heq ▸ hfound)
    · exact .inl (tableSchema_createCatalog hcreate hfound)
  | createSchema catalog schema =>
    rcases hcases _ rfl with heq | hcreate
    · exact .inl (heq ▸ hfound)
    · exact .inl (tableSchema_createSchema hcreate hfound)
  | createTable ddl =>
    rcases hcases _ rfl with heq | hcreate
    · exact .inl (heq ▸ hfound)
    · exact (tableSchema_createTable hcreate hfound).imp_right fun h ↦ ⟨ddl, h⟩

theorem NamesTables.exec (h : c.NamesTables) (op : CatalogOp) : (c.exec op).NamesTables := by
  intro qualified name table hfound
  rcases tableSchema_exec hfound with hold | ⟨ddl, -, hnames⟩
  · exact h qualified name table hold
  · exact hnames

theorem namesTables_of_run (ops : List CatalogOp) : (ops.foldl exec new).NamesTables := by
  refine List.foldlRecOn ops exec (motive := NamesTables) ?_ fun c h op _ ↦ h.exec op
  intro qualified table schema hschema
  simp [tableSchema, new] at hschema

end Catalog

end HatP.Frontend
