import HatP.Tables.Dropped

/-!
# Tables that are created again

A drop leaves the rows of a table in the files and in the log, and only the
recorded prefix hides them.  Once the prefix is cleared for a table of the same
name they are read again.  The two incarnations of the table stay apart when
nothing of the first is left by the time the prefix is cleared.

Next to the store a history of what was put, dropped and cleared is kept, with
which the values that a read returns are compared.
-/

namespace HatP

open Engine Transition

/-! ## What a point read returns -/

namespace KeyIndex

def Matches (index : KeyIndex) (rows : List VersionedRow) : Prop :=
  index = fromRows rows ∧ layoutSize rows < 2 ^ 32

end KeyIndex

namespace Engine

variable {e : Engine} {key : Bytes} {s i : ℕ} {value : Bytes} {v : VersionedValue}

def IndexesMatch (e : Engine) : Prop :=
  ∀ (i : ℕ) (file : SstFile), e.ssts[i]? = some file → ∀ index, file.keyIndex = some index →
    index.Matches file.rows

theorem isLive_of_ssts (h : e.Inv) {file : SstFile} (hfile : e.ssts[i]? = some file) :
    e.IsLive i := by
  by_contra hdead
  rw [h.retired i hdead] at hfile
  cases hfile

theorem held_of_versionsOf (h : e.Inv) {u : VersionedValue} (hu : u ∈ versionsOf (e.rowsOf i) key)
    (hvalue : v.value = u.value) (hv : v.value = some value) :
    ∃ ts, (ts, some value) ∈ e.heldStamps key := by
  cases hfile : e.ssts[i]? with
  | none =>
    rw [rowsOf, hfile] at hu
    cases hu
  | some file =>
    refine ⟨u.beginTs, .inr ⟨u, ⟨i, isLive_of_ssts h hfile, hu⟩, ?_⟩⟩
    rw [VersionedValue.stamp, ← hvalue, hv]

theorem held_of_index (h : e.Inv) (hindexes : e.IndexesMatch) {index : KeyIndex}
    (hindex : e.keyIndexFor i = some index) (hget : index.get key = some v)
    (hv : v.value = some value) : ∃ ts, (ts, some value) ∈ e.heldStamps key := by
  obtain ⟨file, hfile, hfileIndex⟩ := Option.bind_eq_some_iff.mp hindex
  obtain ⟨rfl, hsize⟩ := hindexes i file hfile index hfileIndex
  obtain ⟨u, hu, hvalue⟩ := KeyIndex.value_of_get hsize hget
  have hrows : e.rowsOf i = file.rows := by
    rw [rowsOf, hfile]
    rfl
  exact held_of_versionsOf h (hrows ▸ hu) hvalue hv

theorem held_of_probeFile (h : e.Inv) (hindexes : e.IndexesMatch)
    {indexed : Bool} (hprobe : e.probeFile key s i = .found (some v) indexed)
    (hv : v.value = some value) : ∃ ts, (ts, some value) ∈ e.heldStamps key := by
  unfold probeFile at hprobe
  split_ifs at hprobe
  cases hindex : e.keyIndexFor i with
  | none =>
    cases hget : sstGet (e.rowsOf i) key s with
    | none => simp [hindex, hget] at hprobe
    | some w =>
      simp only [hindex, hget, Probe.found.injEq] at hprobe
      obtain rfl := Option.some.inj hprobe.1
      rw [sstGet_eq_find?] at hget
      obtain ⟨u, hu, rfl⟩ := Option.map_eq_some_iff.mp hget
      exact held_of_versionsOf h (List.mem_of_find?_eq_some hu) rfl hv
  | some index =>
    cases hget : index.get key with
    | none => simp [hindex, hget] at hprobe
    | some w =>
      simp only [hindex, hget, Probe.found.injEq, Option.filter_eq_some_iff] at hprobe
      obtain rfl := Option.some.inj hprobe.1.1
      exact held_of_index h hindexes hindex hget hv

theorem held_of_get (h : e.Inv) (hindexes : e.IndexesMatch)
    (hget : (e.get key s).1 = some value) : ∃ ts, (ts, some value) ∈ e.heldStamps key := by
  rw [get_fst] at hget
  split at hget
  · cases hget
  obtain ⟨v, hfound, hv⟩ := Option.bind_eq_some_iff.mp hget
  rcases Option.or_eq_some_iff.mp hfound with hupper | ⟨-, hsearch⟩
  · rcases Option.or_eq_some_iff.mp hupper with hmem | ⟨-, hhit⟩
    · rw [MemTable.get_eq_chain_get] at hmem
      refine ⟨v.beginTs, .inl ⟨v, List.mem_of_find?_eq_some hmem, ?_⟩⟩
      rw [VersionedValue.stamp, hv]
    · obtain ⟨hroute, -⟩ := Option.filter_eq_some_iff.mp hhit
      obtain ⟨index, hindex, hindexGet⟩ := Option.bind_eq_some_iff.mp hroute
      obtain ⟨i, -, hindexFor⟩ := Option.bind_eq_some_iff.mp hindex
      exact held_of_index h hindexes hindexFor hindexGet hv
  · rw [searchFiles, search_newest] at hsearch
    obtain ⟨⟨i, u⟩, hmax, rfl⟩ := Option.map_eq_some_iff.mp hsearch
    obtain ⟨indexed, hanswer⟩ := mem_offers.mp (List.argmax_mem hmax)
    exact held_of_probeFile h hindexes (mem_answers.mp hanswer).1 hv

theorem held_of_shows {x : VersionedValue} (hshows : e.Shows key s x)
    (hvalue : x.value = some value) : ∃ ts, (ts, some value) ∈ e.heldStamps key := by
  rcases hshows.2 with hmem | ⟨-, i, hi, v, hv, rfl⟩
  · refine ⟨x.beginTs, .inl ⟨x, hmem, ?_⟩⟩
    rw [VersionedValue.stamp, hvalue]
  · refine ⟨v.beginTs, .inr ⟨v, ⟨i, hi, hv⟩, ?_⟩⟩
    rw [VersionedValue.stamp, ← hvalue]
    rfl

end Engine

/-! ## What the calls write -/

def TableOp.outputs (e : Engine) : TableOp → List Output
  | .call (.flush env _) => [⟨e.versionSet.nextFileId, e.memtable.drainInto, env⟩]
  | .call (.compact sourceLevel targetLevel watermark env) =>
    e.chunkOutputs watermark [e.compactionInputs sourceLevel targetLevel] fun _ ↦ env
  | .call (.subCompact sourceLevel targetLevel watermark env) =>
    e.chunkOutputs watermark (splitBySize (e.compactionInputs sourceLevel targetLevel)
      e.versionSet maxChunkBytes) env
  | _ => []

namespace Engine

variable {e : Engine} {i : ℕ} {file : SstFile}

theorem ssts_of_compactChunks {src tgt w : ℕ} {inputs : List ℕ} {chunks : List (List ℕ)}
    {env : ℕ → SstEnv}
    (hfile : (e.compactChunks src tgt w inputs chunks env).ssts[i]? = some file) :
    e.ssts[i]? = some file ∨ ∃ o ∈ e.chunkOutputs w chunks env, file = .write o.rows o.env := by
  rw [ssts_compactChunks] at hfile
  split at hfile
  · cases hfile
  rcases Option.or_eq_some_iff.mp hfile with hnew | ⟨-, hold⟩
  · obtain ⟨o, hfind, rfl⟩ := Option.map_eq_some_iff.mp hnew
    exact .inr ⟨o, List.mem_of_find?_eq_some hfind, rfl⟩
  · exact .inl hold

theorem ssts_replayed (e : Engine) (commits : List (ℕ × List Mutation)) :
    (e.replayed commits).ssts = e.ssts := by
  induction commits generalizing e with
  | nil => rfl
  | cons commit commits ih => exact ih (e.committed commit.1 commit.2)

theorem liveStamps_replayed (e : Engine) (commits : List (ℕ × List Mutation)) (key : Bytes) :
    (e.replayed commits).liveStamps key = e.liveStamps key := by
  induction commits generalizing e with
  | nil => rfl
  | cons commit commits ih => exact ih (e.committed commit.1 commit.2)

end Engine

namespace LoggedEngine

variable {st st' : LoggedEngine} {op : TableOp} {key : Bytes} {p : ℕ × Option Bytes}

theorem ssts_of_tableStep (hstep : st.tableStep op = some st') {i : ℕ} {file : SstFile}
    (hfile : st'.engine.ssts[i]? = some file) :
    st.engine.ssts[i]? = some file ∨ ∃ o ∈ op.outputs st.engine, file = .write o.rows o.env := by
  cases op with
  | call op =>
    cases op with
    | write txId mutations =>
      rcases st.writeWithTx_cases txId mutations with ⟨err, herr⟩ | ⟨w, -, -, -, hok⟩
      · rw [tableStep, step, herr] at hstep
        cases hstep
        exact .inl hfile
      · rw [tableStep, step, hok] at hstep
        cases hstep
        exact .inl hfile
    | flush env walMaxSizeBytes =>
      cases hstep
      change (st.engine.flush env).ssts[i]? = some file at hfile
      by_cases hnil : st.engine.memtable.drainInto = []
      · rw [flush_of_nil hnil] at hfile
        exact .inl hfile
      · rw [ssts_flush hnil] at hfile
        split at hfile
        · exact .inr ⟨_, .head _, (Option.some.inj hfile).symm⟩
        · exact .inl hfile
    | compact src tgt w env =>
      cases hstep
      dsimp only [compactWithWatermark] at hfile
      split at hfile
      · exact .inl hfile
      · exact ssts_of_compactChunks hfile
    | subCompact src tgt w env =>
      cases hstep
      dsimp only [subCompact] at hfile
      split at hfile
      · exact .inl hfile
      · exact ssts_of_compactChunks hfile
    | reopen =>
      obtain ⟨_, _, commits, -, -, rfl⟩ := exists_commits_reopen (reopen_of_step hstep)
      rw [ssts_replayed] at hfile
      exact .inl hfile
  | get key snapshot =>
    cases moves_of_tableStep hstep with
    | refused | get => exact .inl hfile
  | collectMemtable watermark =>
    cases hstep
    exact .inl hfile
  | dropTable table =>
    cases moves_of_tableStep hstep with
    | refused | dropTable => exact .inl hfile
  | undropTable table =>
    cases moves_of_tableStep hstep with
    | refused | undropTable => exact .inl hfile

theorem held_of_moves (h : st.engine.Inv) (hmoves : TableMoves st op st')
    (hp : p ∈ st'.engine.heldStamps key) :
    p ∈ st.engine.heldStamps key ∨ ∃ m, st.Introduces m op ∧ m.key = key ∧ m.value = p.2 := by
  cases hmoves with
  | refused | get key snapshot cache | undropTable table => exact .inl hp
  | write w =>
    rcases (mem_heldStamps_committed h).mp hp with ⟨-, hnet⟩ | hold
    · exact .inr (mem_of_netEffect hnet)
    · exact .inl hold
  | flush env walMaxSizeBytes =>
    change p ∈ (st.engine.flush env).heldStamps key at hp
    rw [heldStamps_flush h.versionSet] at hp
    exact .inl hp
  | compact hc =>
    rcases hc.eq_or_chunks with rfl | ⟨chunks, env, hsplit, rfl⟩
    · exact .inl hp
    · exact .inl (heldStamps_compactChunks_subset h.versionSet hsplit key hp)
  | reopen hreopen =>
    rcases hp with hmem | hlive
    · exact .inr (introduces_of_reopen hreopen hmem)
    · obtain ⟨_, _, commits, -, -, rfl⟩ := exists_commits_reopen hreopen
      refine .inl (.inr ?_)
      rw [← heldStamps_restarted]
      exact .inr (liveStamps_replayed st.engine.restarted commits key ▸ hlive)
  | collectMemtable watermark =>
    exact .inl ((prunes_collectMemtable h watermark).subset key hp)
  | dropTable table => exact .inl (st.engine.heldStamps_dropped_subset table key hp)

end LoggedEngine

/-! ## Histories of a table -/

def Mutation.row? : Mutation → Option (Bytes × Bytes)
  | .put key value => some (key, value)
  | .delete _ => none

theorem Mutation.row?_eq_some {m : Mutation} {value : Bytes} (h : m.value = some value) :
    m.row? = some (m.key, value) := by
  cases m with
  | put key value' => exact congrArg (fun v ↦ some (key, v)) (Option.some.inj h)
  | delete key => cases h

def LoggedEngine.accepts (st : LoggedEngine) : TableOp → Bool
  | .call (.write txId mutations) => (st.writeWithTx txId mutations).isOk
  | .dropTable table => (st.engine.dropTablePrefix table).isOk
  | .undropTable table => (st.engine.undropTablePrefix table).isOk
  | _ => true

/-- The store with what was put since the last drop of a table, and since the last
of its drops that was cleared. -/
structure Tracked where
  store : LoggedEngine
  sinceDrop : Option (List (Bytes × Bytes))
  recreated : Option (List (Bytes × Bytes))

namespace Tracked

def initial : Tracked := ⟨.initial, none, none⟩

def noted (table : Bytes) (g : Tracked) : TableOp → Tracked
  | .call (.write _ mutations) =>
    { g with
      sinceDrop := g.sinceDrop.map (· ++ mutations.filterMap Mutation.row?)
      recreated := g.recreated.map (· ++ mutations.filterMap Mutation.row?) }
  | .dropTable name => if name = table then { g with sinceDrop := some [] } else g
  | .undropTable name => if name = table then { g with recreated := g.sinceDrop } else g
  | _ => g

def step (table : Bytes) (g : Tracked) (op : TableOp) : Option Tracked :=
  (g.store.tableStep op).map fun store ↦
    { (if g.store.accepts op then g.noted table op else g) with store := store }

end Tracked

namespace Engine

/-- Every value held for a key of the table is one of the rows. -/
def HoldsOnly (e : Engine) (table : Bytes) (rows : List (Bytes × Bytes)) : Prop :=
  ∀ held ∈ e.heldRows table, (held.1, held.2.2) ∈ rows

/-- Every value that a read returns for a key of the table is one of the rows.  A
table scan may also have rows of nulls, for deletes. -/
structure ReadsOnly (e : Engine) (table : Bytes) (rows : List (Bytes × Bytes)) : Prop where
  get : ∀ key s value, tablePrefix table <+: key → (e.get key s).1 = some value →
    (key, value) ∈ rows
  scanRange : ∀ lower upper s, ∀ row ∈ e.scanRange lower upper s, tablePrefix table <+: row.1 →
    row ∈ rows
  scanAll : ∀ s key value, (key, some value) ∈ e.scanAll s → tablePrefix table <+: key →
    (key, value) ∈ rows
  tableScanRows : ∀ (σ : Type) [PartialOrder σ] [DecidableEq σ] [DecidableLT σ] [DecidableLE σ]
    (vortex : VortexScan σ) (stats : ℕ → Option (TableColumnStats σ))
    (registered : Option (TableSchema σ)) (schema : TableSchema σ) (name : Bytes)
    (predicates : Option (List (ColumnPredicate σ))),
    ∀ row ∈ e.tableScanRows vortex stats registered schema name predicates,
      tablePrefix table <+: row.key → ∀ value, row.version.value = some value →
        (row.key, value) ∈ rows
  scanTableArrow : ∀ (σ : Type) [PartialOrder σ] [DecidableEq σ] [DecidableLT σ] [DecidableLE σ]
    (vortex : VortexScan σ) (stats : ℕ → Option (TableColumnStats σ))
    (registered fallback : Option (TableSchema σ)) (schema : TableSchema σ) (batchSize : ℕ+)
    (predicates : Option (List (ColumnPredicate σ))) (partitions : List (List (List (List σ)))),
    registered.or fallback = some schema →
    e.scanTableArrow vortex stats registered fallback table batchSize predicates =
      .ok partitions → ∀ columns ∈ partitions.flatten.flatten,
        columns = List.replicate schema.fields.length schema.null ∨
          ∃ row ∈ rows, columns = schema.decode row.2
  scanTable : ∀ (σ : Type) [PartialOrder σ] [DecidableEq σ] [DecidableLT σ] [DecidableLE σ]
    (vortex : VortexScan σ) (stats : ℕ → Option (TableColumnStats σ))
    (registered fallback : Option (TableSchema σ)) (schema : TableSchema σ)
    (batches : List (List (List σ))), registered.or fallback = some schema →
    e.scanTable vortex stats registered fallback table = .ok batches →
      ∀ columns ∈ batches.flatten,
        columns = List.replicate schema.fields.length schema.null ∨
          ∃ row ∈ rows, columns = schema.decode row.2

variable {e : Engine} {table : Bytes} {rows : List (Bytes × Bytes)}

section

variable (h : e.HoldsOnly table rows)

include h

theorem HoldsOnly.of_held {key value : Bytes}
    (hkey : tablePrefix table <+: key) (hheld : ∃ ts, (ts, some value) ∈ e.heldStamps key) :
    (key, value) ∈ rows := by
  obtain ⟨ts, hts⟩ := hheld
  exact h (key, ts, value) ⟨hkey, hts⟩

theorem HoldsOnly.scanTableArrow (hinv : e.Inv) {σ : Type}
    [PartialOrder σ] [DecidableEq σ] [DecidableLT σ] [DecidableLE σ] {vortex : VortexScan σ}
    {stats : ℕ → Option (TableColumnStats σ)} {registered fallback : Option (TableSchema σ)}
    {schema : TableSchema σ} {batchSize : ℕ+} {predicates : Option (List (ColumnPredicate σ))}
    {partitions : List (List (List (List σ)))} (hschema : registered.or fallback = some schema)
    (hscan : e.scanTableArrow vortex stats registered fallback table batchSize predicates =
      .ok partitions) {columns : List σ} (hmem : columns ∈ partitions.flatten.flatten) :
    columns = List.replicate schema.fields.length schema.null ∨
      ∃ row ∈ rows, columns = schema.decode row.2 := by
  obtain ⟨row, hrow, rfl⟩ := exists_mem_tableScanRows hschema hscan hmem
  obtain ⟨hkey, hshows⟩ := shows_of_mem_tableScanRows hinv hrow
  rw [TableSchema.businessColumns]
  cases hvalue : row.version.value with
  | none => exact .inl rfl
  | some value => exact .inr ⟨_, h.of_held hkey (held_of_shows hshows hvalue), rfl⟩

theorem HoldsOnly.readsOnly (hinv : e.Inv)
    (hindexes : e.IndexesMatch) : e.ReadsOnly table rows where
  get key s value hkey hget := h.of_held hkey (held_of_get hinv hindexes hget)
  scanRange lower upper s row hrow hkey := by
    obtain ⟨x, hshows, hvalue⟩ := shows_of_mem_scanRange hinv hrow
    exact h.of_held hkey (held_of_shows hshows hvalue)
  scanAll s key value hrow hkey := by
    obtain ⟨x, hshows, hvalue⟩ := shows_of_mem_scanAll hrow
    exact h.of_held hkey (held_of_shows hshows hvalue)
  tableScanRows := by
    intro _ _ _ _ _ _ _ _ _ _ _ row hrow hkey value hvalue
    exact h.of_held hkey (held_of_shows (shows_of_mem_tableScanRows hinv hrow).2 hvalue)
  scanTableArrow := by
    intro _ _ _ _ _ _ _ _ _ _ _ _ _ hschema hscan columns hmem
    exact h.scanTableArrow hinv hschema hscan hmem
  scanTable := by
    intro _ _ _ _ _ _ _ _ _ _ _ hschema hscan columns hmem
    obtain ⟨partitions, harrow, rfl⟩ := Fallible.map_eq_ok_iff.mp hscan
    exact h.scanTableArrow hinv hschema harrow hmem

end

end Engine

/-! ## Two incarnations -/

namespace Tracked

variable {table : Bytes} {g g' : Tracked} {op : TableOp} {store : LoggedEngine}

/-- Nothing from before the drop is left when it is cleared, or comes back with the
log, and the files have key indexes below the limit of their offsets. -/
structure KeepsApart (table : Bytes) (g : Tracked) (op : TableOp) : Prop where
  cleared : op = .undropTable table → ∀ rows, g.sinceDrop = some rows →
    g.store.engine.HoldsOnly table rows
  replayed : op = .call .reopen → ∀ rows, g.recreated = some rows →
    ∀ m row, g.store.Introduces m op → m.row? = some row → tablePrefix table <+: row.1 → row ∈ rows
  indexed : ∀ o ∈ op.outputs g.store.engine, o.env.keyIndexWritten = true →
    KeyIndex.layoutSize o.rows < 2 ^ 32

structure Apart (table : Bytes) (g : Tracked) : Prop where
  inv : g.store.engine.Inv
  indexes : g.store.engine.IndexesMatch
  holdsOnly : ∀ rows, g.recreated = some rows → g.store.engine.HoldsOnly table rows

theorem apart_initial (table : Bytes) : initial.Apart table where
  inv := inv_initial
  indexes i file hfile := by
    rw [show initial.store.engine.ssts[i]? = none from Std.ExtTreeMap.getElem?_empty] at hfile
    cases hfile
  holdsOnly rows hrows := by cases hrows

theorem indexesMatch_step (h : g.store.engine.IndexesMatch) (hkeeps : g.KeepsApart table op)
    (hstep : g.store.tableStep op = some store) :
    store.engine.IndexesMatch := by
  intro i file hfile index hindex
  rcases LoggedEngine.ssts_of_tableStep hstep hfile with hold | ⟨o, ho, rfl⟩
  · exact h i file hold index hindex
  · rw [SstFile.write] at hindex ⊢
    dsimp only at hindex ⊢
    split at hindex
    next hwritten => exact ⟨(Option.some.inj hindex).symm, hkeeps.indexed o ho hwritten⟩
    next => cases hindex

theorem step_write {txId : ℕ} {mutations : List Mutation}
    (hstep : g.step table (.call (.write txId mutations)) = some g') :
    g' = g ∨ g'.recreated = g.recreated.map (· ++ mutations.filterMap Mutation.row?) := by
  obtain ⟨store, hstore, rfl⟩ := Option.map_eq_some_iff.mp hstep
  rcases g.store.writeWithTx_cases txId mutations with ⟨err, herr⟩ | ⟨w, -, -, -, hok⟩
  · rw [LoggedEngine.tableStep, LoggedEngine.step, herr] at hstore
    cases hstore
    left
    rw [LoggedEngine.accepts, herr]
    rfl
  · right
    rw [LoggedEngine.accepts, hok]
    rfl

theorem step_undrop {name : Bytes} (hstep : g.step table (.undropTable name) = some g') :
    g'.recreated = g.recreated ∨ name = table ∧ g'.recreated = g.sinceDrop := by
  obtain ⟨store, -, rfl⟩ := Option.map_eq_some_iff.mp hstep
  dsimp only
  split
  · rw [noted]
    split
    next hname => exact .inr ⟨hname, rfl⟩
    next => exact .inl rfl
  · exact .inl rfl

theorem step_other (hwrite : ∀ txId mutations, op ≠ .call (.write txId mutations))
    (hundrop : ∀ name, op ≠ .undropTable name) (hstep : g.step table op = some g') :
    g'.recreated = g.recreated := by
  obtain ⟨store, -, rfl⟩ := Option.map_eq_some_iff.mp hstep
  dsimp only
  split
  · cases op with
    | call op =>
      cases op with
      | write txId mutations => exact absurd rfl (hwrite txId mutations)
      | _ => rfl
    | dropTable name =>
      rw [noted]
      split <;> rfl
    | undropTable name => exact absurd rfl (hundrop name)
    | _ => rfl
  · rfl

theorem store_step (hstep : g.step table op = some g') : g.store.tableStep op = some g'.store := by
  obtain ⟨store, hstore, rfl⟩ := Option.map_eq_some_iff.mp hstep
  exact hstore

theorem holdsOnly_step (h : g.Apart table) (hkeeps : g.KeepsApart table op)
    (hstep : g.step table op = some g') {rows : List (Bytes × Bytes)}
    (hrows : g'.recreated = some rows) : g'.store.engine.HoldsOnly table rows := by
  have hmoves := LoggedEngine.moves_of_tableStep (store_step hstep)
  -- A call that introduces nothing leaves at most what was held.
  have hquiet : (∀ m, ¬g.store.Introduces m op) → g.store.engine.HoldsOnly table rows →
      g'.store.engine.HoldsOnly table rows := by
    intro hnone hholds held hheld
    rcases LoggedEngine.held_of_moves h.inv hmoves hheld.2 with hold | ⟨m, hm, -, -⟩
    · exact hholds held ⟨hheld.1, hold⟩
    · exact absurd hm (hnone m)
  by_cases hwrite : ∃ txId mutations, op = .call (.write txId mutations)
  · obtain ⟨txId, mutations, rfl⟩ := hwrite
    rcases step_write hstep with rfl | hnoted
    · exact h.holdsOnly rows hrows
    · rw [hnoted] at hrows
      obtain ⟨before, hbefore, rfl⟩ := Option.map_eq_some_iff.mp hrows
      intro held hheld
      rcases LoggedEngine.held_of_moves h.inv hmoves hheld.2 with hold | ⟨m, hm, hkey, hvalue⟩
      · exact List.mem_append_left _ (h.holdsOnly before hbefore held ⟨hheld.1, hold⟩)
      · refine List.mem_append_right _ (List.mem_filterMap.mpr ⟨m, hm, ?_⟩)
        rw [Mutation.row?_eq_some hvalue, hkey]
  by_cases hundrop : ∃ name, op = .undropTable name
  · obtain ⟨name, rfl⟩ := hundrop
    rcases step_undrop hstep with hsame | ⟨rfl, hnoted⟩
    · exact hquiet (fun _ ↦ id) (h.holdsOnly rows (hsame ▸ hrows))
    · exact hquiet (fun _ ↦ id) (hkeeps.cleared rfl rows (hnoted ▸ hrows))
  have hsame := step_other (fun txId mutations heq ↦ hwrite ⟨txId, mutations, heq⟩)
    (fun name heq ↦ hundrop ⟨name, heq⟩) hstep
  rw [hsame] at hrows
  by_cases hreopen : op = .call .reopen
  · intro held hheld
    rcases LoggedEngine.held_of_moves h.inv hmoves hheld.2 with hold | ⟨m, hm, hkey, hvalue⟩
    · exact h.holdsOnly rows hrows held ⟨hheld.1, hold⟩
    · refine hkeeps.replayed hreopen rows hrows m _ hm ?_ hheld.1
      rw [Mutation.row?_eq_some hvalue, hkey]
  · refine hquiet (fun m hm ↦ ?_) (h.holdsOnly rows hrows)
    cases op with
    | call op =>
      cases op with
      | write txId mutations => exact hwrite ⟨txId, mutations, rfl⟩
      | reopen => exact hreopen rfl
      | _ => exact hm
    | _ => exact hm

theorem Apart.step (h : g.Apart table) (hkeeps : g.KeepsApart table op)
    (hstep : g.step table op = some g') : g'.Apart table where
  inv := LoggedEngine.engine_inv_of_moves h.inv
    (LoggedEngine.moves_of_tableStep (store_step hstep))
  indexes := indexesMatch_step h.indexes hkeeps (store_step hstep)
  holdsOnly _ hrows := holdsOnly_step h hkeeps hstep hrows

/-- Once a drop of the table has been cleared, reads of the table return only what
was put since that drop. -/
theorem recreated_reads_only (table : Bytes) {ops : List TableOp}
    (hmeet : StepsMeet (step table) (KeepsApart table) initial ops) :
    Along (step table) (fun g ↦ ∀ rows, g.recreated = some rows →
      g.store.engine.ReadsOnly table rows) initial ops :=
  hmeet.along (I := Apart table) (fun _ _ _ h hkeeps hstep ↦ h.step hkeeps hstep)
    (fun _ h rows hrows ↦ (h.holdsOnly rows hrows).readsOnly h.inv h.indexes) (apart_initial table)

theorem holdsOnly_dropped {e : Engine} (rows : List (Bytes × Bytes))
    (hlive : ∀ key, e.liveStamps key = ∅) : (e.dropped table).HoldsOnly table rows := by
  rintro held ⟨hkey, hmem | hfile⟩
  · rw [chain_dropped, if_pos hkey] at hmem
    exact absurd hmem (by simp [VersionChain.empty])
  · have hnone : (held.2.1, some held.2.2) ∈ e.liveStamps held.1 := hfile
    rw [hlive] at hnone
    exact absurd hnone id

def droppedUnflushed : List TableOp :=
  [.call (.write 1 [.put [116, 0, 1] [1]]), .dropTable [116], .undropTable [116],
    .call (.write 2 [.put [116, 0, 1] [2]]), .call (.flush plainEnv 1000)]

theorem recreated_reads_only_unflushed :
    ∃ g, run (step [116]) initial droppedUnflushed = some g ∧
      g.recreated = some [([116, 0, 1], [2])] ∧ (g.store.engine.get [116, 0, 1] 2).1 = some [2] ∧
      g.store.engine.ReadsOnly [116] [([116, 0, 1], [2])] := by
  have hreached : (run (step [116]) initial droppedUnflushed).any (fun g ↦
      decide (g.recreated = some [([116, 0, 1], [2])] ∧
        (g.store.engine.get [116, 0, 1] 2).1 = some [2])) = true := by
    decide +kernel
  obtain ⟨g, hrun, hg⟩ := (Option.any_eq_true _ _).mp hreached
  obtain ⟨hrecreated, hget⟩ := of_decide_eq_true hg
  have hquiet : ∀ (g : Tracked) (op : TableOp), op ≠ .undropTable [116] → op ≠ .call .reopen →
      op.outputs g.store.engine = [] → g.KeepsApart [116] op :=
    fun g op hundrop hreopen hnone ↦ ⟨fun heq ↦ absurd heq hundrop, fun heq ↦ absurd heq hreopen,
      fun o ho ↦ absurd (hnone ▸ ho) List.not_mem_nil⟩
  have hengine : ∀ {g g' : Tracked} {op : TableOp}, op.Plain → g.step [116] op = some g' →
      g'.store.engine = g.store.engine.execTable op :=
    fun hplain hstep ↦ LoggedEngine.engine_of_tableStep hplain (store_step hstep)
  have hmeet : StepsMeet (step [116]) (KeepsApart [116]) initial droppedUnflushed := by
    refine fun g₁ h₁ ↦ ⟨hquiet _ _ nofun nofun rfl, fun g₂ h₂ ↦ ⟨hquiet _ _ nofun nofun rfl,
      fun g₃ h₃ ↦ ⟨⟨fun _ rows _ ↦ ?_, nofun, nofun⟩, fun g₄ h₄ ↦ ⟨hquiet _ _ nofun nofun rfl,
        fun g₅ _ ↦ ⟨⟨nofun, nofun, ?_⟩, trivial⟩⟩⟩⟩⟩
    · rw [hengine (by trivial) h₂, hengine (by decide) h₁]
      exact holdsOnly_dropped rows fun key ↦ Set.subset_empty_iff.mp fun p hp ↦
        heldStamps_initial key ▸ Or.inr hp
    · rw [hengine (by decide) h₄, hengine (by trivial) h₃, hengine (by trivial) h₂,
        hengine (by decide) h₁]
      decide +kernel
  refine ⟨g, hrun, hrecreated, hget, ?_⟩
  exact along_iff.mp (recreated_reads_only [116] hmeet) _ g List.prefix_rfl hrun _
    hrecreated

/-! ## Rows that come back -/

theorem exists_run (table : Bytes) {g : Tracked} {ops : List TableOp}
    (hrun : run LoggedEngine.tableStep g.store ops = some store) :
    ∃ g', run (step table) g ops = some g' ∧ g'.store = store := by
  induction ops generalizing g with
  | nil => exact ⟨g, rfl, Option.some.inj hrun⟩
  | cons op ops ih =>
    obtain ⟨next, hstep, hrest⟩ := run_cons_eq_some.mp hrun
    obtain ⟨g', hg', hstore⟩ := ih (g :=
      { (if g.store.accepts op then g.noted table op else g) with store := next }) hrest
    refine ⟨g', run_cons_eq_some.mpr ⟨_, ?_, hg'⟩, hstore⟩
    rw [step, hstep]
    rfl

def flushedAndCleared : List TableOp :=
  [.call (.write 1 [.put [116, 0, 1] [1]]), .call (.flush plainEnv 1000), .dropTable [116],
    .undropTable [116]]

def compactedAndCleared : List TableOp :=
  [.call (.write 1 [.put [116, 0, 1] [1]]), .call (.flush plainEnv 1000),
    .call (.write 2 [.put [116, 0, 2] [2]]), .call (.flush plainEnv 1000),
    .dropTable [116], .call (.compact 0 1 2 plainEnv), .undropTable [116]]

def clearedAndReopened : List TableOp :=
  [.call (.write 1 [.put [116, 0, 1] [1]]), .dropTable [116], .undropTable [116], .call .reopen]

/-- A row of the dropped table is read after the drop has been cleared: from its
file, from the output of a compaction, which filters nothing, and from the log. -/
theorem dropped_rows_read_again :
    (∃ g, run (step [116]) initial flushedAndCleared = some g ∧
      g.recreated = some [] ∧ (g.store.engine.get [116, 0, 1] 1).1 = some [1]) ∧
    (∃ g, run (step [116]) initial compactedAndCleared = some g ∧
      g.recreated = some [] ∧ (g.store.engine.get [116, 0, 1] 2).1 = some [1]) ∧
    ∃ g, run (step [116]) initial clearedAndReopened = some g ∧
      g.recreated = some [] ∧ (g.store.engine.get [116, 0, 1] 1).1 = some [1] := by
  have hfound : ∀ {ops : List TableOp} {s : ℕ},
      (run (step [116]) initial ops).any (fun g ↦ decide (g.recreated = some [] ∧
        (g.store.engine.get [116, 0, 1] s).1 = some [1])) = true →
      ∃ g, run (step [116]) initial ops = some g ∧ g.recreated = some [] ∧
        (g.store.engine.get [116, 0, 1] s).1 = some [1] := by
    intro ops s h
    obtain ⟨g, hrun, hg⟩ := (Option.any_eq_true _ _).mp h
    exact ⟨g, hrun, of_decide_eq_true hg⟩
  refine ⟨hfound (by decide +kernel), hfound (by decide +kernel), ?_⟩
  have hmarks : ∀ op ∈ [TableOp.dropTable [116], .undropTable [116]], op.Marks := by
    simp [TableOp.Marks]
  have hstore := LoggedEngine.run_marks_reopen LoggedEngine.firstRow
    ⟨by decide, by decide, by decide⟩ hmarks
  obtain ⟨g, hrun, hg⟩ := exists_run [116] (g := initial) hstore
  refine ⟨g, hrun, ?_, ?_⟩
  · have hbefore : (run (step [116]) initial
        [.call (.write 1 [.put [116, 0, 1] [1]]), .dropTable [116], .undropTable [116]]).map
          Tracked.recreated = some (some []) := by
      decide +kernel
    obtain ⟨before, hfirst, hlast⟩ := run_append_eq_some.mp
      (show run (step [116]) initial ([.call (.write 1 [.put [116, 0, 1] [1]]),
        .dropTable [116], .undropTable [116]] ++ [.call .reopen]) = some g from hrun)
    obtain ⟨last, hstep, hend⟩ := run_cons_eq_some.mp hlast
    rw [hfirst] at hbefore
    obtain rfl := Option.some.inj hend
    rw [step_other (by simp) (by simp) hstep]
    exact Option.some.inj hbefore
  · rw [hg]
    decide

end Tracked

end HatP
