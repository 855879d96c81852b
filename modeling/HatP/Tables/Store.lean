import HatP.Manifest.Batches
import HatP.PinnedSnapshots
import HatP.Wal.Restart

/-!
# Tables in the store

All tables share one key space; the keys of a table begin with its name and a
zero byte.  Dropping a table records that prefix in the manifest and erases its
keys from the memtable.  The files and the log keep theirs.
-/

namespace HatP

open Transition
open Std (ExtTreeMap LawfulEqCmp)

/-! ## Dropping tables -/

def tablePrefix (table : Bytes) : Bytes := table ++ [0]

/-- The least byte string above all that begin with `key`: trailing `0xFF` bytes
are dropped and the last of the others is incremented. -/
def prefixUpperExclusive (key : Bytes) : Bytes :=
  match key.reverse.dropWhile (· == 255) with
  | [] => key
  | last :: rest => ((last + 1) :: rest).reverse

def inPrefixRange (tablePrefix key : Bytes) : Bool :=
  decide (tablePrefix ≤ key) && decide (key < prefixUpperExclusive tablePrefix)

def MemTable.erasePrefix (table : MemTable) (tablePrefix : Bytes) : ℕ × MemTable :=
  ((table.keys.filter (inPrefixRange tablePrefix)).length,
    table.filter fun key _ ↦ !inPrefixRange tablePrefix key)

/-- The key of a row: the name of the table and a zero byte, then the encoded parts
of the primary key, each behind a zero byte. -/
def assembleTableKey (table : Bytes) (encodedParts : List Bytes) : Bytes :=
  table ++ [0] ++ encodedParts.flatMap fun part ↦ 0 :: part

namespace Engine

def dropTablePrefix (e : Engine) (table : Bytes) : Except EngineError (ℕ × Engine) := do
  let _ ← Manifest.encodeEdits [.droppedPrefix (tablePrefix table)]
  let (removedCount, memtable) := e.memtable.erasePrefix (tablePrefix table)
  return (removedCount,
    { e with
      versionSet := e.versionSet.applied [.droppedPrefix (tablePrefix table)]
      droppedTables := e.droppedTables.insert (tablePrefix table)
      memtable := memtable })

def undropTablePrefix (e : Engine) (table : Bytes) : Except EngineError Engine := do
  let _ ← Manifest.encodeEdits [.undroppedPrefix (tablePrefix table)]
  return { e with
    versionSet := e.versionSet.applied [.undroppedPrefix (tablePrefix table)]
    droppedTables := e.droppedTables.erase (tablePrefix table) }

end Engine

/-- The calls of a sequential history.  Compactions and the collection of the
memtable run with any watermark. -/
inductive TableOp
  | call (op : RestartOp)
  | get (key : Bytes) (snapshot : ℕ)
  | collectMemtable (watermark : ℕ)
  | dropTable (table : Bytes)
  | undropTable (table : Bytes)

/-- A call that returns an error changes nothing, and an engine that cannot be
opened makes no further steps. -/
def LoggedEngine.tableStep (st : LoggedEngine) : TableOp → Option LoggedEngine
  | .call op => st.step op
  | .get key snapshot => some { st with engine := (st.engine.get key snapshot).2 }
  | .collectMemtable watermark =>
    some { st with engine := st.engine.collectMemtable watermark }
  | .dropTable table =>
    match st.engine.dropTablePrefix table with
    | .ok (_, engine) => some { st with engine := engine }
    | .error _ => some st
  | .undropTable table =>
    match st.engine.undropTablePrefix table with
    | .ok engine => some { st with engine := engine }
    | .error _ => some st

/-! ## Prefixes -/

variable {table key : Bytes}

theorem prefixUpperExclusive_append (front : Bytes) {byte : UInt8} (hbyte : byte ≠ 255)
    {tail : Bytes} (htail : ∀ b ∈ tail, b = 255) :
    prefixUpperExclusive (front ++ byte :: tail) = front ++ [byte + 1] := by
  have hdropped : (front ++ byte :: tail).reverse.dropWhile (· == 255) = byte :: front.reverse := by
    rw [List.reverse_append, List.reverse_cons, List.append_assoc,
      List.dropWhile_append_of_pos fun b hb ↦ beq_iff_eq.mpr (htail b (List.mem_reverse.mp hb))]
    exact List.dropWhile_cons_of_neg (by simpa using hbyte)
  rw [prefixUpperExclusive, hdropped]
  simp

theorem exists_last_below_max {xs : Bytes} (h : ∃ byte ∈ xs, byte ≠ 255) :
    ∃ front byte tail, xs = front ++ byte :: tail ∧ byte ≠ 255 ∧ ∀ b ∈ tail, b = 255 := by
  induction xs with
  | nil =>
    obtain ⟨byte, hmem, -⟩ := h
    cases hmem
  | cons x xs ih =>
    by_cases hlater : ∃ byte ∈ xs, byte ≠ 255
    · obtain ⟨front, byte, tail, rfl, hbyte, htail⟩ := ih hlater
      exact ⟨x :: front, byte, tail, rfl, hbyte, htail⟩
    · push Not at hlater
      obtain ⟨byte, hmem, hbyte⟩ := h
      rcases List.mem_cons.mp hmem with rfl | hmem
      · exact ⟨[], byte, xs, rfl, hbyte, hlater⟩
      · exact absurd (hlater byte hmem) hbyte

theorem inPrefixRange_iff {start : Bytes} (h : ∃ byte ∈ start, byte ≠ 255) :
    inPrefixRange start key = true ↔ start <+: key := by
  obtain ⟨front, byte, tail, rfl, hbyte, htail⟩ := exists_last_below_max h
  rw [inPrefixRange, prefixUpperExclusive_append front hbyte htail, Bool.and_eq_true,
    decide_eq_true_eq, decide_eq_true_eq, ByteOrder.prefix_iff front hbyte htail]

theorem inPrefixRange_tablePrefix :
    inPrefixRange (tablePrefix table) key = true ↔ tablePrefix table <+: key :=
  inPrefixRange_iff ⟨0, List.mem_append_right _ (.head _), by decide⟩

@[simp] theorem keyTablePrefix_nil : keyTablePrefix [] = [] := rfl

theorem keyTablePrefix_cons (byte : UInt8) (key : Bytes) :
    keyTablePrefix (byte :: key) = if byte = 0 then [0] else byte :: keyTablePrefix key := by
  rw [keyTablePrefix, List.findIdx?_cons]
  by_cases hzero : byte = 0
  · simp [hzero]
  · rw [if_neg (by simpa using hzero), if_neg hzero, keyTablePrefix]
    cases key.findIdx? (· == 0) <;> rfl

theorem keyTablePrefix_of_table (h : tablePrefix table <+: key) :
    keyTablePrefix key = keyTablePrefix (tablePrefix table) := by
  obtain ⟨rest, rfl⟩ := h
  rw [tablePrefix, List.append_assoc]
  induction table with
  | nil => simp [keyTablePrefix_cons]
  | cons byte table ih =>
    change keyTablePrefix (byte :: (table ++ ([0] ++ rest))) =
      keyTablePrefix (byte :: (table ++ [0]))
    rw [keyTablePrefix_cons, keyTablePrefix_cons, ih]

theorem tablePrefix_prefix_assembleTableKey (table : Bytes) (encodedParts : List Bytes) :
    tablePrefix table <+: assembleTableKey table encodedParts :=
  List.prefix_append _ _

theorem keyTablePrefix_tablePrefix (h : 0 ∉ table) :
    keyTablePrefix (tablePrefix table) = tablePrefix table := by
  rw [tablePrefix]
  induction table with
  | nil => rfl
  | cons byte table ih =>
    rw [List.mem_cons, not_or] at h
    rw [List.cons_append, keyTablePrefix_cons, if_neg (Ne.symm h.1), ih h.2]

theorem prefix_keyTablePrefix (key : Bytes) : keyTablePrefix key <+: key := by
  rw [keyTablePrefix]
  split
  · exact List.take_prefix _ _
  · exact List.prefix_rfl

theorem tablePrefix_prefix_iff_keyTablePrefix (h : 0 ∉ table) :
    tablePrefix table <+: key ↔ keyTablePrefix key = tablePrefix table := by
  constructor
  · intro hkey
    rw [keyTablePrefix_of_table hkey, keyTablePrefix_tablePrefix h]
  · intro hkey
    rw [← hkey]
    exact prefix_keyTablePrefix key

theorem zero_not_mem_of_keyTablePrefix
    (h : keyTablePrefix key = tablePrefix table) : 0 ∉ table := by
  rw [tablePrefix] at h
  induction key generalizing table with
  | nil => simp at h
  | cons byte key ih =>
    rw [keyTablePrefix_cons] at h
    cases table with
    | nil => exact List.not_mem_nil
    | cons first table =>
      rw [List.cons_append] at h
      split at h
      · simp at h
      next hbyte =>
        obtain ⟨rfl, htail⟩ := List.cons.inj h
        rw [List.mem_cons, not_or]
        exact ⟨Ne.symm hbyte, ih htail⟩

theorem MemTable.chain_erasePrefix (table : MemTable) (tablePrefix key : Bytes) :
    (table.erasePrefix tablePrefix).2.chain key =
      if inPrefixRange tablePrefix key then .empty else table.chain key := by
  rw [chain, erasePrefix, ExtTreeMap.getElem?_filter']
  cases hin : inPrefixRange tablePrefix key with
  | true => cases hentry : table[key]? <;> simp [Option.filter]
  | false => cases hentry : table[key]? <;> simp [Option.filter, chain, hentry]

namespace Engine

variable {e : Engine} {table : Bytes}

def dropped (e : Engine) (table : Bytes) : Engine :=
  { e with
    versionSet := e.versionSet.applied [.droppedPrefix (tablePrefix table)]
    droppedTables := e.droppedTables.insert (tablePrefix table)
    memtable := (e.memtable.erasePrefix (tablePrefix table)).2 }

def undropped (e : Engine) (table : Bytes) : Engine :=
  { e with
    versionSet := e.versionSet.applied [.undroppedPrefix (tablePrefix table)]
    droppedTables := e.droppedTables.erase (tablePrefix table) }

theorem dropTablePrefix_cases (e : Engine) (table : Bytes) :
    (∃ err, e.dropTablePrefix table = .error err) ∨
      ∃ removed, e.dropTablePrefix table = .ok (removed, e.dropped table) := by
  cases hencode : Manifest.encodeEdits [.droppedPrefix (tablePrefix table)] with
  | error err => exact .inl ⟨err, by rw [dropTablePrefix, hencode]; rfl⟩
  | ok bytes => exact .inr ⟨_, by rw [dropTablePrefix, hencode]; rfl⟩

theorem undropTablePrefix_cases (e : Engine) (table : Bytes) :
    (∃ err, e.undropTablePrefix table = .error err) ∨
      e.undropTablePrefix table = .ok (e.undropped table) := by
  cases hencode : Manifest.encodeEdits [.undroppedPrefix (tablePrefix table)] with
  | error err => exact .inl ⟨err, by rw [undropTablePrefix, hencode]; rfl⟩
  | ok bytes => exact .inr (by rw [undropTablePrefix, hencode]; rfl)

theorem chain_dropped (e : Engine) (table key : Bytes) :
    (e.dropped table).memtable.chain key =
      if tablePrefix table <+: key then .empty else e.memtable.chain key := by
  rw [dropped, MemTable.chain_erasePrefix]
  simp only [inPrefixRange_tablePrefix]

theorem heldStamps_dropped_subset (e : Engine) (table key : Bytes) :
    (e.dropped table).heldStamps key ⊆ e.heldStamps key := by
  rintro p (hp | hp)
  · rw [chain_dropped] at hp
    split at hp
    · exact absurd hp (by simp [VersionChain.empty])
    · exact .inl hp
  · exact .inr hp

theorem Inv.dropped (h : e.Inv) (table : Bytes) : (e.dropped table).Inv where
  versionSet := h.versionSet.droppedPrefix _
  memtable_tiled key := by
    rw [chain_dropped]
    split
    · exact VersionChain.tiled_empty
    · exact h.memtable_tiled key
  sorted := h.sorted
  tiled := h.tiled
  retired := h.retired
  metadata := h.metadata
  begun key p hp := h.begun key p (e.heldStamps_dropped_subset table key hp)
  unique key p hp q hq := h.unique key p (e.heldStamps_dropped_subset table key hp) q
    (e.heldStamps_dropped_subset table key hq)

theorem Inv.undropped (h : e.Inv) (table : Bytes) : (e.undropped table).Inv :=
  ⟨h.versionSet.undroppedPrefix _, h.memtable_tiled, h.sorted, h.tiled, h.retired, h.metadata,
    h.begun, h.unique⟩

end Engine

/-! ## What a replay installs -/

def WalRecord.mutation? (record : WalRecord) : Option Mutation :=
  match record.op with
  | .put => record.value.map (Mutation.put record.key)
  | .delete => some (.delete record.key)
  | .commit | .abort => none

theorem MemTable.applyRecord_eq {table table' : MemTable} {record : WalRecord} {commitTs : ℕ}
    (h : table.applyRecord commitTs record = .ok table') :
    table' = table.applyMutationsBatch record.txId record.mutation?.toList commitTs := by
  obtain ⟨txId, op, key, value⟩ := record
  cases op with
  | put =>
    cases value with
    | none => cases h
    | some value =>
      cases h
      rfl
  | delete | commit | abort =>
    cases h
    rfl

theorem MemTable.applyRecordsBatch_eq {table table' : MemTable} {records : List WalRecord}
    {txId commitTs : ℕ} (htx : ∀ record ∈ records, record.txId = txId)
    (h : table.applyRecordsBatch records commitTs = .ok table') :
    table' = table.applyMutationsBatch txId (records.filterMap WalRecord.mutation?) commitTs := by
  induction records generalizing table with
  | nil =>
    cases h
    rfl
  | cons record records ih =>
    rw [applyRecordsBatch, List.foldlM_cons] at h
    obtain ⟨next, happly, hrest⟩ := Fallible.bind_eq_ok h
    have hnext := applyRecord_eq happly
    rw [htx record (.head _)] at hnext
    rw [ih (fun r hr ↦ htx r (.tail _ hr)) hrest, hnext, applyMutationsBatch,
      applyMutationsBatch, applyMutationsBatch, ← List.foldl_append]
    congr 1
    cases hm : record.mutation? <;> simp [hm]

def Engine.replayed (e : Engine) (commits : List (ℕ × List Mutation)) : Engine :=
  commits.foldl (fun e commit ↦ e.committed commit.1 commit.2) e

theorem Engine.Inv.replayed {e : Engine} (h : e.Inv) (commits : List (ℕ × List Mutation)) :
    (e.replayed commits).Inv := by
  induction commits generalizing e with
  | nil => exact h
  | cons commit commits ih => exact ih h.committed

namespace Replay

def Collects (st : Replay) (seen : List WalRecord) : Prop :=
  ∀ txId records, st.pending[txId]? = some records →
    ∀ record ∈ records, record.txId = txId ∧ record ∈ seen

variable {seen : List WalRecord}

theorem Collects.step {st st' : Replay} {record : WalRecord}
    (h : st.Collects seen) (hrecord : record ∈ seen) (hstep : st.step record = .ok st') :
    st'.Collects seen := by
  have herased : ∀ txId records, (st.pending.erase record.txId)[txId]? = some records →
      st.pending[txId]? = some records := fun txId records hsome ↦ by
    rw [ExtTreeMap.getElem?_erase] at hsome
    split at hsome
    · cases hsome
    · exact hsome
  rcases step_cases hstep with ⟨-, rfl⟩ | ⟨-, -, rfl⟩ | ⟨_, _, -, -, -, rfl⟩ | ⟨-, rfl⟩
  · intro txId records hsome r hr
    rw [ExtTreeMap.getElem?_alter] at hsome
    split at hsome
    next heq =>
      cases hsome
      have htx : record.txId = txId := LawfulEqCmp.eq_of_compare heq
      rcases List.mem_append.mp hr with hold | hnew
      · cases hpending : st.pending[record.txId]? with
        | none =>
          rw [hpending] at hold
          cases hold
        | some old =>
          rw [hpending] at hold
          exact htx ▸ h _ old hpending r hold
      · rw [List.mem_singleton.mp hnew]
        exact ⟨htx, hrecord⟩
    next => exact h txId records hsome r hr
  · exact h
  · exact fun txId records hsome ↦ h txId records (herased txId records hsome)
  · exact fun txId records hsome ↦ h txId records (herased txId records hsome)

/-- A replay installs commits, whose mutations are in the log. -/
theorem exists_commits {st st' : Replay} {records : List WalRecord} (h : st.Collects seen)
    (hseen : ∀ record ∈ records, record ∈ seen) (hrun : st.run records = .ok st') :
    ∃ commits : List (ℕ × List Mutation),
      (∀ commit ∈ commits, ∀ m ∈ commit.2, ∃ record ∈ seen, record.mutation? = some m) ∧
      ∀ e : Engine, e.memtable = st.memtable → e.commitSeq = st.nextCommitTs →
        e.replayed commits =
          { e with memtable := st'.memtable, commitSeq := st'.nextCommitTs } := by
  induction records generalizing st with
  | nil =>
    cases hrun
    refine ⟨[], fun _ hmem ↦ (by cases hmem), fun e hmemtable hseq ↦ ?_⟩
    rw [← hmemtable, ← hseq]
    rfl
  | cons record records ih =>
    rw [run, List.foldlM_cons] at hrun
    obtain ⟨next, hstep, hrest⟩ := Fallible.bind_eq_ok hrun
    obtain ⟨commits, hcommits, hinstall⟩ := ih
      (h.step (hseen record (.head _)) hstep)
      (fun r hr ↦ hseen r (.tail _ hr)) hrest
    rcases step_cases hstep with
      ⟨-, rfl⟩ | ⟨-, -, rfl⟩ | ⟨batch, memtable, -, hpending, happly, rfl⟩ | ⟨-, rfl⟩
    · exact ⟨commits, hcommits, hinstall⟩
    · exact ⟨commits, hcommits, hinstall⟩
    · have hbatch := h record.txId batch hpending
      have hmemtable := MemTable.applyRecordsBatch_eq (fun r hr ↦ (hbatch r hr).1) happly
      refine ⟨(record.txId, batch.filterMap WalRecord.mutation?) :: commits,
        List.forall_mem_cons.mpr ⟨fun m hm ↦ ?_, hcommits⟩, fun e hstart hseq ↦ ?_⟩
      · obtain ⟨r, hr, hmutation⟩ := List.mem_filterMap.mp hm
        exact ⟨r, (hbatch r hr).2, hmutation⟩
      · refine (hinstall (e.committed _ _) ?_ (congrArg (· + 1) hseq)).trans rfl
        rw [hmemtable, ← hstart, ← hseq]
        rfl
    · exact ⟨commits, hcommits, hinstall⟩

end Replay

/-! ## Reachable stores -/

namespace LoggedEngine

variable {st st' : LoggedEngine}

theorem exists_commits_reopen (h : st.reopen = .ok st') :
    ∃ records validBytes commits, Wal.recover st.wal = .ok (records, validBytes) ∧
      (∀ commit ∈ commits, ∀ m ∈ commit.2, ∃ record ∈ records, record.mutation? = some m) ∧
      st' = ⟨st.engine.restarted.replayed commits, st.wal.take validBytes⟩ := by
  obtain ⟨⟨records, validBytes⟩, hrecover, hrest⟩ := Fallible.bind_eq_ok h
  obtain ⟨replayed, hrun, hdone⟩ := Fallible.bind_eq_ok hrest
  have hstart : (Replay.start st.engine.sstMaxCommit).Collects records :=
    fun txId pending hsome ↦ by simp [Replay.start] at hsome
  obtain ⟨commits, hcommits, hinstall⟩ := Replay.exists_commits hstart (fun _ hr ↦ hr) hrun
  refine ⟨records, validBytes, commits, hrecover, hcommits, ?_⟩
  rw [hinstall st.engine.restarted rfl rfl, ← Except.ok.inj hdone]

/-- What a call of a history does. -/
inductive TableMoves (st : LoggedEngine) : TableOp → LoggedEngine → Prop
  | refused (op : TableOp) : TableMoves st op st
  | write (w : PendingWrite) : TableMoves st (.call (.write w.txId w.mutations))
      ⟨st.engine.committed w.txId w.mutations, st.wal ++ w.bytes⟩
  | flush (env : SstEnv) (walMaxSizeBytes : ℕ) :
      TableMoves st (.call (.flush env walMaxSizeBytes)) (st.flush env walMaxSizeBytes)
  | compact {op : RestartOp} {src tgt w : ℕ} {engine : Engine}
      (h : Engine.Compacts st.engine src tgt w engine) :
      TableMoves st (.call op) { st with engine := engine }
  | reopen {next : LoggedEngine} (h : st.reopen = .ok next) : TableMoves st (.call .reopen) next
  | get (key : Bytes) (snapshot : ℕ) (cache : ExtTreeMap Bytes ℕ) :
      TableMoves st (.get key snapshot)
        { st with engine := { st.engine with hotKeyCache := cache } }
  | collectMemtable (watermark : ℕ) : TableMoves st (.collectMemtable watermark)
      { st with engine := st.engine.collectMemtable watermark }
  | dropTable (table : Bytes) : TableMoves st (.dropTable table)
      { st with engine := st.engine.dropped table }
  | undropTable (table : Bytes) : TableMoves st (.undropTable table)
      { st with engine := st.engine.undropped table }

theorem moves_of_step {op : RestartOp} (hstep : st.step op = some st') :
    TableMoves st (.call op) st' := by
  cases op with
  | write txId mutations =>
    rcases st.writeWithTx_cases txId mutations with ⟨err, herr⟩ | ⟨w, rfl, rfl, -, hok⟩
    · rw [step, herr] at hstep
      cases hstep
      exact .refused _
    · rw [step, hok] at hstep
      cases hstep
      exact .write w
  | flush env walMaxSizeBytes =>
    cases hstep
    exact .flush env walMaxSizeBytes
  | compact src tgt w env =>
    cases hstep
    exact .compact (.compact env)
  | subCompact src tgt w env =>
    cases hstep
    exact .compact (.subCompact env)
  | reopen =>
    exact .reopen (reopen_of_step hstep)

theorem moves_of_tableStep {op : TableOp} (hstep : st.tableStep op = some st') :
    TableMoves st op st' := by
  cases op with
  | call op => exact moves_of_step hstep
  | get key snapshot =>
    cases hstep
    obtain ⟨cache, heq⟩ := st.engine.get_snd key snapshot
    rw [heq]
    exact .get key snapshot cache
  | collectMemtable watermark =>
    cases hstep
    exact .collectMemtable watermark
  | dropTable table =>
    rcases st.engine.dropTablePrefix_cases table with ⟨err, herr⟩ | ⟨removed, hok⟩
    · rw [tableStep, herr] at hstep
      cases hstep
      exact .refused _
    · rw [tableStep, hok] at hstep
      cases hstep
      exact .dropTable table
  | undropTable table =>
    rcases st.engine.undropTablePrefix_cases table with ⟨err, herr⟩ | hok
    · rw [tableStep, herr] at hstep
      cases hstep
      exact .refused _
    · rw [tableStep, hok] at hstep
      cases hstep
      exact .undropTable table

theorem tableStep_write (st : LoggedEngine) (w : PendingWrite)
    (hlength : ∀ m ∈ w.mutations, m.key.length ≤ Wal.maxU32 ∧
      (m.value.getD []).length ≤ Wal.maxU32) :
    st.tableStep (.call (.write w.txId w.mutations)) =
      some ⟨st.engine.committed w.txId w.mutations, st.wal ++ w.bytes⟩ := by
  have hencode : Wal.encodeMutations w.txId w.mutations = .ok w.bytes := by
    refine Wal.encodeRecords_eq_ok_iff.mpr ⟨fun record hrecord ↦ ?_, rfl⟩
    rcases List.mem_append.mp hrecord with hmem | hmem
    · obtain ⟨m, hm, rfl⟩ := List.mem_map.mp hmem
      have hm := hlength m hm
      cases m <;> exact hm
    · rw [List.mem_singleton.mp hmem]
      exact ⟨Nat.zero_le _, Nat.zero_le _⟩
  rcases st.writeWithTx_cases w.txId w.mutations with ⟨err, herr⟩ | ⟨w', htx, hms, -, hok⟩
  · simp [writeWithTx, Engine.writeWithTx, w.nonempty, w.txId_ne, hencode, bind, Except.bind,
      pure, Except.pure] at herr
  · obtain ⟨txId, mutations, _, _⟩ := w
    obtain ⟨txId', mutations', _, _⟩ := w'
    dsimp only at htx hms
    subst htx hms
    rw [tableStep, step, hok]

theorem engine_inv_of_moves (h : st.engine.Inv) {op : TableOp} (hmoves : TableMoves st op st') :
    st'.engine.Inv := by
  cases hmoves with
  | refused => exact h
  | write w => exact h.committed
  | flush env walMaxSizeBytes => exact h.flush env
  | compact hc => exact h.compacts hc
  | reopen hreopen =>
    obtain ⟨_, _, commits, -, -, rfl⟩ := exists_commits_reopen hreopen
    exact h.restarted.replayed commits
  | get key snapshot cache => exact h.setCache cache
  | collectMemtable watermark => exact h.collectMemtable watermark
  | dropTable table => exact h.dropped table
  | undropTable table => exact h.undropped table

/-- The invariant of the engine holds after every sequential history, restarts
included. -/
theorem engine_inv_of_run {ops : List TableOp}
    (hrun : run tableStep initial ops = some st) : st.engine.Inv :=
  (stepsMeet_true initial ops).run_invariant
    (I := fun st : LoggedEngine ↦ st.engine.Inv)
    (fun _ _ _ h _ hstep ↦ engine_inv_of_moves h (moves_of_tableStep hstep)) Engine.inv_initial hrun

end LoggedEngine

/-! ## Histories without restarts -/

def Engine.execTable (e : Engine) : TableOp → Engine
  | .call (.write txId mutations) => e.exec (.write txId mutations)
  | .call (.flush env _) => e.flush env
  | .call (.compact sourceLevel targetLevel watermark env) =>
    e.compactWithWatermark sourceLevel targetLevel watermark env
  | .call (.subCompact sourceLevel targetLevel watermark env) =>
    e.subCompact sourceLevel targetLevel watermark env
  | .call .reopen => e.restarted
  | .get key snapshot => (e.get key snapshot).2
  | .collectMemtable watermark => e.collectMemtable watermark
  | .dropTable table => ((e.dropTablePrefix table).toOption.map Prod.snd).getD e
  | .undropTable table => (e.undropTablePrefix table).toOption.getD e

/-- The call is no restart, and the log can hold what it writes. -/
def TableOp.Plain : TableOp → Prop
  | .call (.write _ mutations) => ∀ m ∈ mutations,
      m.key.length ≤ Wal.maxU32 ∧ (m.value.getD []).length ≤ Wal.maxU32
  | .call .reopen => False
  | _ => True

instance : DecidablePred TableOp.Plain
  | .call (.write _ mutations) => inferInstanceAs (Decidable (∀ m ∈ mutations,
      m.key.length ≤ Wal.maxU32 ∧ (m.value.getD []).length ≤ Wal.maxU32))
  | .call .reopen => inferInstanceAs (Decidable False)
  | .call (.flush _ _) | .call (.compact _ _ _ _) | .call (.subCompact _ _ _ _) | .get _ _
  | .collectMemtable _ | .dropTable _ | .undropTable _ => inferInstanceAs (Decidable True)

namespace LoggedEngine

theorem exists_tableStep (st : LoggedEngine) {op : TableOp} (h : op.Plain) :
    ∃ st', st.tableStep op = some st' ∧ st'.engine = st.engine.execTable op := by
  cases op with
  | call op =>
    cases op with
    | write txId mutations =>
      by_cases hnil : mutations = []
      · exact ⟨st, by simp [tableStep, step, writeWithTx, Engine.writeWithTx, hnil, bind,
          Except.bind], by simp [Engine.execTable, Engine.exec, Engine.writeWithTx, hnil]⟩
      by_cases htx : txId = 0
      · exact ⟨st, by simp [tableStep, step, writeWithTx, Engine.writeWithTx, hnil, htx, bind,
          Except.bind], by simp [Engine.execTable, Engine.exec, Engine.writeWithTx, hnil, htx]⟩
      refine ⟨_, st.tableStep_write ⟨txId, mutations, htx, hnil⟩ h, ?_⟩
      simp [Engine.execTable, Engine.exec, Engine.writeWithTx, hnil, htx, Engine.committed]
    | flush env walMaxSizeBytes | compact sourceLevel targetLevel watermark env
    | subCompact sourceLevel targetLevel watermark env => exact ⟨_, rfl, rfl⟩
    | reopen => exact absurd h id
  | get key snapshot | collectMemtable watermark => exact ⟨_, rfl, rfl⟩
  | dropTable table =>
    rcases st.engine.dropTablePrefix_cases table with ⟨err, herr⟩ | ⟨removed, hok⟩
    · exact ⟨st, by rw [tableStep, herr], by rw [Engine.execTable, herr]; rfl⟩
    · exact ⟨_, by rw [tableStep, hok], by rw [Engine.execTable, hok]; rfl⟩
  | undropTable table =>
    rcases st.engine.undropTablePrefix_cases table with ⟨err, herr⟩ | hok
    · exact ⟨st, by rw [tableStep, herr], by rw [Engine.execTable, herr]; rfl⟩
    · exact ⟨_, by rw [tableStep, hok], by rw [Engine.execTable, hok]; rfl⟩

/-- A history without restarts can be followed on the engine alone. -/
theorem exists_run_plain (st : LoggedEngine) {ops : List TableOp} (h : ∀ op ∈ ops, op.Plain) :
    ∃ st', run tableStep st ops = some st' ∧ st'.engine = ops.foldl Engine.execTable st.engine := by
  induction ops generalizing st with
  | nil => exact ⟨st, rfl, rfl⟩
  | cons op ops ih =>
    obtain ⟨hop, hops⟩ := List.forall_mem_cons.mp h
    obtain ⟨next, hstep, hnext⟩ := st.exists_tableStep hop
    obtain ⟨st', hrun, hst'⟩ := ih next hops
    exact ⟨st', run_cons_eq_some.mpr ⟨next, hstep, hrun⟩, by
      rw [hst', hnext, List.foldl_cons]⟩

end LoggedEngine

/-! ## A restart after drops -/

def TableOp.Marks : TableOp → Prop
  | .dropTable _ | .undropTable _ => True
  | _ => False

namespace LoggedEngine

variable {marks : List TableOp}

theorem run_marks (st : LoggedEngine) (h : ∀ op ∈ marks, op.Marks) :
    run tableStep st marks = some { st with engine := marks.foldl Engine.execTable st.engine } := by
  induction marks generalizing st with
  | nil => rfl
  | cons op marks ih =>
    obtain ⟨hop, hmarks⟩ := List.forall_mem_cons.mp h
    have hstep : st.tableStep op = some { st with engine := st.engine.execTable op } := by
      cases op with
      | dropTable table =>
        rcases st.engine.dropTablePrefix_cases table with ⟨err, herr⟩ | ⟨removed, hok⟩
        · simp [tableStep, Engine.execTable, herr, Except.toOption]
        · simp [tableStep, Engine.execTable, hok, Except.toOption]
      | undropTable table =>
        rcases st.engine.undropTablePrefix_cases table with ⟨err, herr⟩ | hok
        · simp [tableStep, Engine.execTable, herr, Except.toOption]
        · simp [tableStep, Engine.execTable, hok, Except.toOption]
      | _ => exact absurd hop id
    exact run_cons_eq_some.mpr ⟨_, hstep, ih _ hmarks⟩

/-- Drops leave the log as it is, and a restart replays what it holds. -/
theorem run_marks_reopen (w : PendingWrite) (hw : w.InRange) (h : ∀ op ∈ marks, op.Marks) :
    run tableStep initial
        (.call (.write w.txId w.mutations) :: (marks ++ [.call .reopen])) =
      some ⟨(marks.foldl Engine.execTable
        (Engine.initial.committed w.txId w.mutations)).restarted.committed w.txId w.mutations,
        w.bytes⟩ := by
  have hwrite := initial.tableStep_write w fun m hm ↦ ⟨(hw.key m hm).le, (hw.value m hm).le⟩
  refine run_cons_eq_some.mpr ⟨_, hwrite, run_append_eq_some.mpr ⟨_, run_marks _ h, ?_⟩⟩
  refine run_cons_eq_some.mpr ⟨_, ?_, run_nil _⟩
  have hwal : w.bytes = [w].flatMap PendingWrite.bytes := (List.append_nil _).symm
  rw [tableStep, step, reopen_eq hwal fun v hv ↦ List.mem_singleton.mp hv ▸ hw]
  rfl

end LoggedEngine

end HatP
