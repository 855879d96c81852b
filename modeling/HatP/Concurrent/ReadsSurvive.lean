import HatP.Concurrent.CompactionReaders

/-!
# Reads that survive a compaction

A read that has loaded its version set is not disturbed as long as no file is
retired that it has still to visit.  Then every access finds what it would find
without the compaction.  A read that loads the new version set finds the outputs,
which the commit does not touch, and returns what it would have returned before.
-/

namespace HatP

open DerivedFiles Interference Transition
open Std (ExtTreeMap)

/-! ## The system -/

/-- A compaction that has written its outputs. -/
structure Merge where
  before : Engine
  sourceLevel : ℕ
  targetLevel : ℕ
  watermark : ℕ
  chunks : List (List ℕ)
  env : ℕ → SstEnv
  splits : before.Splits sourceLevel targetLevel chunks

namespace Merge

def inputs (m : Merge) : List ℕ := m.before.compactionInputs m.sourceLevel m.targetLevel

def outputs (m : Merge) : List Engine.Output := m.before.chunkOutputs m.watermark m.chunks m.env

def edits (m : Merge) : List VersionEdit :=
  Engine.compactionEdits m.before.versionSet m.inputs m.sourceLevel m.targetLevel m.outputs

def after (m : Merge) : Engine :=
  m.before.compactChunks m.sourceLevel m.targetLevel m.watermark m.inputs m.chunks m.env

def written (m : Merge) : ExtTreeMap ℕ SstFile :=
  m.outputs.foldl (fun ssts o ↦ ssts.insert o.fileId (.write o.rows o.env)) m.before.ssts

def sidecars {α : Type} (files : ExtTreeMap ℕ α) (cached : ℕ → Bool) : Store ℕ α :=
  ⟨files, files.filter fun fileId _ ↦ cached fileId⟩

def start (m : Merge) (bloomCached keyIndexCached : ℕ → Bool) : ReadState where
  versionSet := m.before.versionSet
  ssts := m.written.map fun _ file ↦ file.rows
  blooms := sidecars (m.written.filterMap fun _ file ↦ file.bloom) bloomCached
  keyIndexes := sidecars (m.written.filterMap fun _ file ↦ file.keyIndex) keyIndexCached
  memtable := m.before.memtable
  droppedTables := m.before.droppedTables
  hotKeyCache := m.before.hotKeyCache
  commit := commitSteps m.edits m.inputs
  loaded := false
  pending := []

end Merge

inductive ReadOp
  | get (key : Bytes)
  | scanRange (lower upper : Bytes)
  | scanAll

inductive ReadResult
  | value (value : Option Bytes)
  | pairs (pairs : List (Bytes × Bytes))
  | rows (rows : List (Bytes × Option Bytes))
deriving DecidableEq

namespace ReadOp

def program (snapshot : ℕ) : ReadOp → Program ReadState (Except EngineError ReadResult)
  | .get key => do return (← ReadState.get key snapshot).map .value
  | .scanRange lower upper => do return (← ReadState.scanRange lower upper snapshot).map .pairs
  | .scanAll => do return (← ReadState.scanAll snapshot).map .rows

def answer (e : Engine) (snapshot : ℕ) : ReadOp → ReadResult
  | .get key => .value (e.get key snapshot).1
  | .scanRange lower upper => .pairs (e.scanRange lower upper snapshot)
  | .scanAll => .rows (e.scanAll snapshot)

end ReadOp

/-- A read of the new version set cannot go wrong where one of the old did not. -/
def Merge.Repeats (m : Merge) : ReadOp → Prop
  | .get key => m.before.Unambiguous key ∧ m.after.Unambiguous key
  | .scanRange _ _ | .scanAll => True

namespace ReadState

/-- Nothing is published before the read has loaded its version set, unless it can
be repeated, and no file is retired that it has still to visit. -/
def Harmless (repeats : Prop) (s : ReadState) (next : CommitStep) : Prop :=
  match next.fileId with
  | none => s.loaded = true ∨ repeats
  | some i => i ∉ s.pending

instance (repeats : Prop) [Decidable repeats] (s : ReadState) :
    DecidablePred (s.Harmless repeats)
  | .publish _ => inferInstanceAs (Decidable (_ ∨ _))
  | .unlinkSst _ | .unlinkBloom _ | .unlinkKeyIndex _ | .bloomRemove _ | .keyIndexRemove _ =>
    inferInstanceAs (Decidable (_ ∉ _))

def Allows (repeats : Prop) (s : ReadState) : CommitTurn → Prop
  | .proceed => ∀ next ∈ s.commit.head?, s.Harmless repeats next
  | .keep | .abandon => True

instance (repeats : Prop) [Decidable repeats] (s : ReadState) : DecidablePred (s.Allows repeats)
  | .proceed => inferInstanceAs (Decidable (∀ next ∈ s.commit.head?, s.Harmless repeats next))
  | .keep | .abandon => isTrue trivial

/-- As long as the read has not returned, the commit does not disturb it. -/
def Undisturbed {ρ : Type} (repeats : Prop) :
    ReadState × Program ReadState ρ → Interference.Turn CommitTurn → Prop
  | (s, .act _ _), .environment turn => s.Allows repeats turn
  | _, _ => True

instance {ρ : Type} (repeats : Prop) [Decidable repeats] :
    ∀ (st : ReadState × Program ReadState ρ) turn, Decidable (Undisturbed repeats st turn)
  | (s, .act _ _), .environment turn => inferInstanceAs (Decidable (s.Allows repeats turn))
  | (_, .act _ _), .program | (_, .done _), .program | (_, .done _), .environment _ =>
    isTrue trivial

/-! ## What the commit does to the files -/

/-- The files of the engine `e` are there. -/
structure Serves (s : ReadState) (e : Engine) (i : ℕ) : Prop where
  sst : s.ssts[i]? = some (e.rowsOf i)
  bloom : s.blooms.Backs i (e.bloomFor i)
  keyIndex : s.keyIndexes.Backs i (e.keyIndexFor i)

def Rely (repeats : Prop) (s t : ReadState) : Prop :=
  ∃ turn, s.Allows repeats turn ∧ s.commitTurn turn = some t

/-- The steps of a commit that does not disturb the read. -/
inductive Moves (repeats : Prop) (s : ReadState) : ReadState → Prop
  | publish (edits : List VersionEdit) (rest : List CommitStep)
      (hcommit : s.commit = .publish edits :: rest) (hallowed : s.loaded = true ∨ repeats) :
      Moves repeats s { s with versionSet := s.versionSet.applied edits, commit := rest }
  | retire (next : CommitStep) (i : ℕ) (rest : List CommitStep) (hcommit : s.commit = next :: rest)
      (hnext : next.fileId = some i) (hallowed : i ∉ s.pending) :
      Moves repeats s { s.perform next with commit := rest }
  | skip (next : CommitStep) (i : ℕ) (rest : List CommitStep) (hcommit : s.commit = next :: rest)
      (hnext : next.fileId = some i) : Moves repeats s { s with commit := rest }
  | abandon : Moves repeats s { s with commit := [] }

variable {repeats : Prop} {s t : ReadState} {e : Engine} {i j : ℕ} {next : CommitStep}

theorem moves_of_rely (h : s.Rely repeats t) : s.Moves repeats t := by
  obtain ⟨turn, hallows, hturn⟩ := h
  cases turn with
  | proceed =>
    rw [commitTurn] at hturn
    split at hturn
    next => cases hturn
    next next rest hcommit =>
      cases hturn
      have hharmless := hallows next (by rw [hcommit]; rfl)
      rw [Harmless] at hharmless
      cases hnext : next.fileId with
      | none =>
        rw [hnext] at hharmless
        cases next with
        | publish edits => exact .publish edits rest hcommit hharmless
        | _ => cases hnext
      | some i =>
        rw [hnext] at hharmless
        exact .retire next i rest hcommit hnext hharmless
  | keep =>
    rw [commitTurn] at hturn
    split at hturn
    next fileId rest hcommit =>
      cases hturn
      exact .skip _ fileId rest hcommit rfl
    next fileId rest hcommit =>
      cases hturn
      exact .skip _ fileId rest hcommit rfl
    next => cases hturn
  | abandon =>
    rw [commitTurn] at hturn
    split at hturn
    next =>
      cases hturn
      exact .abandon
    next =>
      cases hturn
      exact .abandon
    next => cases hturn

theorem Moves.frame (h : s.Moves repeats t) :
    t.memtable = s.memtable ∧ t.droppedTables = s.droppedTables ∧
      t.hotKeyCache = s.hotKeyCache ∧ t.loaded = s.loaded ∧ t.pending = s.pending := by
  cases h with
  | retire next i rest hcommit hnext hallowed =>
    cases next <;> exact ⟨rfl, rfl, rfl, rfl, rfl⟩
  | publish | skip | abandon => exact ⟨rfl, rfl, rfl, rfl, rfl⟩

theorem perform_versionSet (hnext : next.fileId = some j) :
    (s.perform next).versionSet = s.versionSet := by
  cases next with
  | publish edits => cases hnext
  | _ => rfl

theorem Serves.perform (h : s.Serves e i) (hnext : next.fileId = some j) (hne : j ≠ i) :
    (s.perform next).Serves e i := by
  cases next with
  | publish edits => cases hnext
  | unlinkSst fileId =>
    cases hnext
    refine ⟨?_, h.bloom, h.keyIndex⟩
    exact (Store.getElem?_erase_of_ne hne).trans h.sst
  | unlinkBloom fileId =>
    cases hnext
    exact ⟨h.sst, h.bloom.unlink hne, h.keyIndex⟩
  | unlinkKeyIndex fileId =>
    cases hnext
    exact ⟨h.sst, h.bloom, h.keyIndex.unlink hne⟩
  | bloomRemove fileId =>
    cases hnext
    exact ⟨h.sst, h.bloom.evict hne, h.keyIndex⟩
  | keyIndexRemove fileId =>
    cases hnext
    exact ⟨h.sst, h.bloom, h.keyIndex.evict hne⟩

theorem Serves.moves (h : s.Serves e i) (hmoves : s.Moves repeats t) (hi : i ∈ s.pending) :
    t.Serves e i := by
  cases hmoves with
  | retire next j rest hcommit hnext hallowed =>
    have hne : j ≠ i := fun heq ↦ hallowed (heq ▸ hi)
    have hserves := h.perform hnext hne
    exact ⟨hserves.sst, hserves.bloom, hserves.keyIndex⟩
  | publish | skip | abandon => exact ⟨h.sst, h.bloom, h.keyIndex⟩

/-- `t` differs from `s` in what the caches have and in how far the read is. -/
structure Refills (s t : ReadState) : Prop where
  versionSet : t.versionSet = s.versionSet
  ssts : t.ssts = s.ssts
  commit : t.commit = s.commit
  droppedTables : t.droppedTables = s.droppedTables
  blooms : ∀ i a, s.blooms.Backs i a → t.blooms.Backs i a
  keyIndexes : ∀ i a, s.keyIndexes.Backs i a → t.keyIndexes.Backs i a

theorem Serves.refills (h : s.Serves e i) (hrefills : s.Refills t) : t.Serves e i :=
  ⟨hrefills.ssts ▸ h.sst, hrefills.blooms _ _ h.bloom, hrefills.keyIndexes _ _ h.keyIndex⟩

theorem refills_keyIndex {index : KeyIndex} (hfile : s.keyIndexes.files[i]? = some index) :
    s.Refills { s with keyIndexes.cache := Store.fill none s.keyIndexes.cache i index } :=
  ⟨rfl, rfl, rfl, rfl, fun _ _ h ↦ h, fun _ _ h ↦ h.fill hfile⟩

theorem refills_read (s : ReadState) (route : ExtTreeMap Bytes ℕ) (loaded : Bool)
    (pending : List ℕ) :
    s.Refills { s with hotKeyCache := route, loaded := loaded, pending := pending } :=
  ⟨rfl, rfl, rfl, rfl, fun _ _ h ↦ h, fun _ _ h ↦ h⟩

end ReadState

/-! ## How far the commit is -/

namespace Merge

open ReadState

variable {m : Merge} {repeats : Prop} {s t : ReadState} {i : ℕ}

/-- Nothing has been published. -/
structure Before (m : Merge) (s : ReadState) : Prop where
  versionSet : s.versionSet = m.before.versionSet
  commit : s.commit = commitSteps m.edits m.inputs ∨ s.commit = []
  serves : ∀ i, m.before.IsLive i → s.Serves m.before i
  outputs : ∀ i, m.after.IsLive i → s.Serves m.after i
  routes : ∀ i < m.before.versionSet.nextFileId, s.keyIndexes.Backs i (m.before.keyIndexFor i)

/-- The new version set is published, and inputs are being retired. -/
structure After (m : Merge) (s : ReadState) : Prop where
  versionSet : s.versionSet = m.after.versionSet
  commit : ∀ next ∈ s.commit, ∃ i ∈ m.inputs, next.fileId = some i
  serves : ∀ i, m.after.IsLive i → s.Serves m.after i

theorem not_isLive_input (h : m.before.Inv) (hi : i ∈ m.inputs) : ¬m.after.IsLive i := by
  intro hlive
  rcases (Engine.isLive_compactChunks h.versionSet).mp hlive with ⟨-, hkept⟩ | ⟨index, -, rfl⟩
  · exact hkept hi
  · have hlt := Engine.inputs_lt h.versionSet _ hi
    omega

theorem retires_of_mem_commitSteps {next : CommitStep} {rest : List CommitStep}
    {edits : List VersionEdit} (hsteps : commitSteps m.edits m.inputs = .publish edits :: rest)
    (hnext : next ∈ rest) : ∃ i ∈ m.inputs, next.fileId = some i := by
  obtain rfl := (List.cons.inj hsteps).2
  obtain ⟨i, hi, hmem⟩ := List.mem_flatMap.mp hnext
  refine ⟨i, hi, ?_⟩
  simp only [List.mem_cons, List.not_mem_nil, or_false] at hmem
  rcases hmem with rfl | rfl | rfl | rfl | rfl <;> rfl

theorem Before.moves (h : m.Before s) (hmoves : s.Moves repeats t) :
    m.Before t ∨ m.After t ∧ (s.loaded = true ∨ repeats) := by
  have hstart : ∀ next rest, s.commit = next :: rest →
      commitSteps m.edits m.inputs = next :: rest := fun next rest hcommit ↦ by
    rcases h.commit with hsteps | hnil
    · rw [← hsteps, hcommit]
    · rw [hnil] at hcommit
      cases hcommit
  cases hmoves with
  | publish edits rest hcommit hallowed =>
    have hsteps := hstart _ _ hcommit
    obtain rfl : m.edits = edits := CommitStep.publish.inj (List.cons.inj hsteps).1
    refine .inr ⟨⟨?_, fun next ↦ retires_of_mem_commitSteps hsteps, fun i hi ↦ ?_⟩, hallowed⟩
    · change s.versionSet.applied m.edits = m.after.versionSet
      rw [h.versionSet]
      rfl
    · exact ⟨(h.outputs i hi).sst, (h.outputs i hi).bloom, (h.outputs i hi).keyIndex⟩
  | retire next i rest hcommit hnext hallowed | skip next i rest hcommit hnext =>
    rw [← (List.cons.inj (hstart _ _ hcommit)).1] at hnext
    cases hnext
  | abandon =>
    refine .inl ⟨h.versionSet, .inr rfl, fun i hi ↦ ?_, fun i hi ↦ ?_, h.routes⟩
    · exact ⟨(h.serves i hi).sst, (h.serves i hi).bloom, (h.serves i hi).keyIndex⟩
    · exact ⟨(h.outputs i hi).sst, (h.outputs i hi).bloom, (h.outputs i hi).keyIndex⟩

theorem After.moves (hinv : m.before.Inv) (h : m.After s) (hmoves : s.Moves repeats t) :
    m.After t := by
  cases hmoves with
  | publish edits rest hcommit hallowed =>
    obtain ⟨i, -, hfile⟩ := h.commit (.publish edits) (by rw [hcommit]; exact .head _)
    cases hfile
  | retire next i rest hcommit hnext hallowed =>
    obtain ⟨j, hj, hfile⟩ := h.commit next (by rw [hcommit]; exact .head _)
    refine ⟨(perform_versionSet hnext).trans h.versionSet, fun other hother ↦ ?_, fun k hk ↦ ?_⟩
    · exact h.commit other (by rw [hcommit]; exact List.mem_cons_of_mem next hother)
    · have hne : j ≠ k := by
        rintro rfl
        exact not_isLive_input hinv hj hk
      have hserves := (h.serves k hk).perform hfile hne
      exact ⟨hserves.sst, hserves.bloom, hserves.keyIndex⟩
  | skip next i rest hcommit hnext =>
    refine ⟨h.versionSet, fun other hother ↦ ?_, fun k hk ↦ ?_⟩
    · exact h.commit other (by rw [hcommit]; exact List.mem_cons_of_mem next hother)
    · exact ⟨(h.serves k hk).sst, (h.serves k hk).bloom, (h.serves k hk).keyIndex⟩
  | abandon =>
    refine ⟨h.versionSet, fun other hother ↦ (by cases hother), fun k hk ↦ ?_⟩
    exact ⟨(h.serves k hk).sst, (h.serves k hk).bloom, (h.serves k hk).keyIndex⟩

theorem Before.refills (h : m.Before s) (hrefills : s.Refills t) : m.Before t where
  versionSet := hrefills.versionSet.trans h.versionSet
  commit := hrefills.commit.symm ▸ h.commit
  serves i hi := (h.serves i hi).refills hrefills
  outputs i hi := (h.outputs i hi).refills hrefills
  routes i hi := hrefills.keyIndexes _ _ (h.routes i hi)

theorem After.refills (h : m.After s) (hrefills : s.Refills t) : m.After t where
  versionSet := hrefills.versionSet.trans h.versionSet
  commit := hrefills.commit.symm ▸ h.commit
  serves i hi := (h.serves i hi).refills hrefills

/-! ## A read between its files -/

/-- The read has loaded the version set of `e` and has still to visit `files`. -/
structure Holding (m : Merge) (e : Engine) (files : List ℕ) (s : ReadState) : Prop where
  droppedTables : s.droppedTables = m.before.droppedTables
  stage : m.Before s ∨ m.After s
  loaded : s.loaded = true
  pending : s.pending = files
  source : e = m.before ∨ e = m.after ∧ m.After s
  live : ∀ i ∈ files, e.IsLive i
  serves : ∀ i ∈ files, s.Serves e i

variable {e : Engine} {files rest : List ℕ}

theorem Holding.moves (hinv : m.before.Inv) (h : m.Holding e files s)
    (hmoves : s.Moves repeats t) : m.Holding e files t := by
  obtain ⟨-, hdropped, -, hloaded, hpending⟩ := hmoves.frame
  refine ⟨hdropped.trans h.droppedTables, ?_, hloaded.trans h.loaded, hpending.trans h.pending,
    h.source.imp_right fun hafter ↦ ⟨hafter.1, hafter.2.moves hinv hmoves⟩, h.live,
    fun i hi ↦ (h.serves i hi).moves hmoves (h.pending ▸ hi)⟩
  rcases h.stage with hbefore | hafter
  · exact (hbefore.moves hmoves).imp_right And.left
  · exact .inr (hafter.moves hinv hmoves)

theorem Holding.refills (h : m.Holding e files s) (hrefills : s.Refills t)
    (hloaded : t.loaded = s.loaded) (hpending : t.pending = s.pending) : m.Holding e files t where
  droppedTables := hrefills.droppedTables.trans h.droppedTables
  stage := h.stage.imp (·.refills hrefills) (·.refills hrefills)
  loaded := hloaded.trans h.loaded
  pending := hpending.trans h.pending
  source := h.source.imp_right fun hafter ↦ ⟨hafter.1, hafter.2.refills hrefills⟩
  live := h.live
  serves i hi := (h.serves i hi).refills hrefills

theorem Holding.visited (h : m.Holding e (i :: rest) s) (route : ExtTreeMap Bytes ℕ) :
    m.Holding e rest { s with hotKeyCache := route, pending := rest } := by
  have hrefills := refills_read s route s.loaded rest
  exact
    { droppedTables := h.droppedTables
      stage := h.stage.imp (·.refills hrefills) (·.refills hrefills)
      loaded := h.loaded
      pending := rfl
      source := h.source.imp_right fun hafter ↦ ⟨hafter.1, hafter.2.refills hrefills⟩
      live := fun j hj ↦ h.live j (List.mem_cons_of_mem i hj)
      serves := fun j hj ↦ (h.serves j (List.mem_cons_of_mem i hj)).refills hrefills }

theorem Holding.stable (hinv : m.before.Inv) (h : m.Holding e files s)
    (hst : Relation.ReflTransGen (Rely repeats) s t) : m.Holding e files t :=
  Program.stable_of_step (fun _ _ h hrely ↦ h.moves hinv (moves_of_rely hrely)) h hst

theorem Holding.outsideRange (hinv : m.before.Inv) (h : m.Holding e (i :: rest) s)
    {lower upper : Bytes}
    (houtside : (Engine.ofVersionSet s.versionSet).outsideRange lower upper i = true) :
    e.outsideRange lower upper i = true := by
  rcases h.source with rfl | ⟨rfl, hafter⟩
  · rcases h.stage with hbefore | hafter
    · rw [hbefore.versionSet] at houtside
      exact houtside
    · obtain ⟨l, hl⟩ := h.live i (.head _)
      have hmeta : m.after.versionSet.fileMeta[i]? = if i ∈ m.inputs then none
          else m.before.versionSet.fileMeta[i]? := by
        rw [after, Engine.fileMeta_compactChunks,
          Engine.find?_chunkOutputs_of_lt (hinv.versionSet.fresh hl)]
        rfl
      rw [hafter.versionSet] at houtside
      change (m.after.versionSet.fileMeta[i]?).any _ = true at houtside
      rw [hmeta] at houtside
      split at houtside
      · cases houtside
      · exact houtside
  · rw [hafter.versionSet] at houtside
    exact houtside

/-! ## A read that has not loaded its version set -/

structure Waiting (m : Merge) (repeats : Prop) (s : ReadState) : Prop where
  memtable : s.memtable = m.before.memtable
  droppedTables : s.droppedTables = m.before.droppedTables
  hotKeyCache : s.hotKeyCache = m.before.hotKeyCache
  loaded : s.loaded = false
  stage : m.Before s ∨ repeats ∧ m.After s

theorem Waiting.moves (hinv : m.before.Inv) (h : m.Waiting repeats s)
    (hmoves : s.Moves repeats t) : m.Waiting repeats t := by
  obtain ⟨hmemtable, hdropped, hcache, hloaded, -⟩ := hmoves.frame
  refine ⟨hmemtable.trans h.memtable, hdropped.trans h.droppedTables,
    hcache.trans h.hotKeyCache, hloaded.trans h.loaded, ?_⟩
  rcases h.stage with hbefore | ⟨hrepeats, hafter⟩
  · refine (hbefore.moves hmoves).imp_right fun ⟨hafter, hallowed⟩ ↦ ⟨?_, hafter⟩
    exact hallowed.resolve_left (by simp [h.loaded])
  · exact .inr ⟨hrepeats, hafter.moves hinv hmoves⟩

theorem Waiting.stable (hinv : m.before.Inv) (h : m.Waiting repeats s)
    (hst : Relation.ReflTransGen (Rely repeats) s t) : m.Waiting repeats t :=
  Program.stable_of_step (fun _ _ h hrely ↦ h.moves hinv (moves_of_rely hrely)) h hst

theorem Waiting.load (h : m.Waiting repeats s) {files : VersionSet → List ℕ}
    (hbefore : ∀ i ∈ files m.before.versionSet, m.before.IsLive i)
    (hafter : ∀ i ∈ files m.after.versionSet, m.after.IsLive i) :
    ∃ e, (e = m.before ∨ repeats ∧ e = m.after) ∧ s.versionSet = e.versionSet ∧
      m.Holding e (files e.versionSet)
        { s with loaded := true, pending := files s.versionSet } := by
  have hrefills := refills_read s s.hotKeyCache true (files s.versionSet)
  rcases h.stage with hstage | ⟨hrepeats, hstage⟩
  · have hserves := hstage.refills hrefills
    exact ⟨m.before, .inl rfl, hstage.versionSet,
      { droppedTables := h.droppedTables
        stage := .inl hserves
        loaded := rfl
        pending := congrArg files hstage.versionSet
        source := .inl rfl
        live := hbefore
        serves := fun i hi ↦ hserves.serves i (hbefore i hi) }⟩
  · have hserves := hstage.refills hrefills
    exact ⟨m.after, .inr ⟨hrepeats, rfl⟩, hstage.versionSet,
      { droppedTables := h.droppedTables
        stage := .inr hserves
        loaded := rfl
        pending := congrArg files hstage.versionSet
        source := .inr ⟨rfl, hserves⟩
        live := hafter
        serves := fun i hi ↦ hserves.serves i (hafter i hi) }⟩

end Merge

variable {e : Engine} {snapshot : ℕ}

theorem Engine.scanRows_of_outsideRange {lower upper : Bytes} {i : ℕ}
    (h : e.Inv) (hi : e.IsLive i) (houtside : e.outsideRange lower upper i = true) :
    scanRows (e.rowsOf i) lower upper snapshot = [] := by
  rw [List.eq_nil_iff_forall_not_mem]
  intro row hrow
  obtain ⟨hrange, -, v, hv, -⟩ := mem_scanRows.mp hrow
  have hinside := not_outsideRange h hi (List.ne_nil_of_mem hv) hrange
  exact absurd (houtside.symm.trans hinside) (by simp)

theorem Engine.scanRange_eq_collected {lower upper : Bytes} (h : e.Inv) :
    e.scanRange lower upper snapshot =
      (e.levelFiles.foldl (fun visible i ↦
        e.insertRows visible (scanRows (e.rowsOf i) lower upper snapshot))
        ((e.memtable.scanRangeVersions lower upper snapshot).foldl insertNewest ∅)).toList.filterMap
          fun entry ↦ entry.2.value.map (Prod.mk entry.1) := by
  rw [scanRange]
  refine congrArg (fun visible ↦ List.filterMap _ (ExtTreeMap.toList visible)) ?_
  refine List.foldl_ext _ _ _ fun visible i hi ↦ ?_
  split
  next houtside =>
    rw [scanRows_of_outsideRange h (mem_levelFiles.mp hi) houtside]
    rfl
  next => rfl

theorem Engine.get_of_miss {key : Bytes}
    (hdropped : e.isDroppedPrefix key = false) (hmemtable : e.memtable.get key snapshot = none)
    (hhit : e.hotKeyHit key snapshot = none) :
    (e.get key snapshot).1 = (e.searchFiles key snapshot).newest.bind VersionedValue.value := by
  rw [get_fst, hdropped, hmemtable, hhit]
  rfl

namespace ReadState

/-! ## The accesses of a read -/

section Accesses

open Program

variable {repeats : Prop} {s : ReadState} {key lower upper : Bytes} {snapshot i : ℕ}

theorem meets_loadSidecar {α : Type} {store : ReadState → Store ℕ α}
    {fill : ℕ → α → ReadState → ReadState} {H : ReadState → Prop} {a : Option α}
    (hstable : ∀ s t, H s → Relation.ReflTransGen (Rely repeats) s t → H t)
    (hbacks : ∀ s, H s → (store s).Backs i a)
    (hfill : ∀ s x, H s → (store s).files[i]? = some x → H (fill i x s)) (hs : H s) :
    (loadSidecar store fill i).Meets (Rely repeats) (fun r t ↦ r = a ∧ H t) s := by
  refine .bind (meets_read fun t hst ↦ ?_)
  have ht := hstable s t hs hst
  cases hcache : (store t).cache[i]? with
  | some cached =>
    refine meets_pure ⟨?_, ht⟩
    rw [← hcache]
    exact (hbacks t ht).2.resolve_left (by simp [hcache])
  | none =>
    refine .bind (meets_read fun u htu ↦ ?_)
    have hu := hstable t u ht htu
    have hfile := (hbacks u hu).1
    cases hcontent : (store u).files[i]? with
    | none => exact meets_pure ⟨hcontent.symm.trans hfile, hu⟩
    | some x =>
      refine .bind (meets_access fun v huv ↦ ?_)
      have hv := hstable u v hu huv
      have hx : some x = a := hcontent.symm.trans hfile
      exact meets_pure ⟨hx, hfill v x hv ((hbacks v hv).1.trans hx.symm)⟩

variable {m : Merge} {e : Engine} {rest : List ℕ} (hinv : m.before.Inv)
  (h : m.Holding e (i :: rest) s)

include hinv h

theorem meets_bloomFor :
    (bloomFor i).Meets (Rely repeats)
      (fun r t ↦ r = e.bloomFor i ∧ m.Holding e (i :: rest) t) s := by
  refine meets_loadSidecar (fun _ _ h hst ↦ h.stable hinv hst)
    (fun s h ↦ (h.serves i (.head _)).bloom) (fun s filter h hfile ↦ ?_) h
  exact h.refills ⟨rfl, rfl, rfl, rfl, fun _ _ h ↦ h.fill hfile, fun _ _ h ↦ h⟩ rfl rfl

theorem meets_keyIndexFor :
    (keyIndexFor i).Meets (Rely repeats)
      (fun r t ↦ r = e.keyIndexFor i ∧ m.Holding e (i :: rest) t) s := by
  refine meets_loadSidecar (fun _ _ h hst ↦ h.stable hinv hst)
    (fun s h ↦ (h.serves i (.head _)).keyIndex) (fun s index h hfile ↦ ?_) h
  exact h.refills (refills_keyIndex hfile) rfl rfl

theorem meets_openSst :
    (openSst i).Meets (Rely repeats)
      (fun r t ↦ r = some (e.rowsOf i) ∧ m.Holding e (i :: rest) t) s := by
  refine meets_read fun t hst ↦ ?_
  have ht := h.stable hinv hst
  exact ⟨(ht.serves i (.head _)).sst, ht⟩

theorem meets_probe :
    (probe e.versionSet key snapshot i).Meets (Rely repeats)
      (fun r t ↦ r = .ok (e.probeFile key snapshot i) ∧ m.Holding e (i :: rest) t) s := by
  rw [probe, Engine.probeFile]
  change Meets _ _ (if !e.rangeMayContain key i then _ else _) s
  split
  next => exact meets_pure ⟨rfl, h⟩
  next =>
    refine .bind ((meets_bloomFor hinv h).mono ?_)
    rintro _ t ⟨rfl, ht⟩
    split
    next => exact meets_pure ⟨rfl, ht⟩
    next =>
      refine .bind ((meets_keyIndexFor hinv ht).mono ?_)
      rintro _ u ⟨rfl, hu⟩
      cases e.keyIndexFor i with
      | some index =>
        dsimp only
        cases index.get key with
        | some version | none => exact meets_pure ⟨rfl, hu⟩
      | none =>
        refine .bind ((meets_openSst hinv hu).mono ?_)
        rintro _ v ⟨rfl, hv⟩
        dsimp only
        cases sstGet (e.rowsOf i) key snapshot with
        | some version | none => exact meets_pure ⟨rfl, hv⟩

omit h in
theorem meets_search {files : List ℕ} {newest : Option VersionedValue} {found : Bool}
    (h : m.Holding e files s) (cache : ExtTreeMap Bytes ℕ) :
    (search e.versionSet key snapshot files newest found).Meets (Rely repeats)
      (fun r _ ↦ r = .ok ((files.foldl (Engine.searchStep key e.levelOf
        (e.probeFile key snapshot)) ⟨newest, found, cache⟩).newest.bind VersionedValue.value))
      s := by
  induction files generalizing s newest found cache with
  | nil => exact meets_pure rfl
  | cons i rest ih =>
    have hvisited : ∀ {t : ReadState} (_ : m.Holding e (i :: rest) t)
        (route : ReadState → ExtTreeMap Bytes ℕ) (st : Engine.Search),
        (visited route rest >>= fun _ ↦
          search e.versionSet key snapshot rest st.newest st.foundInLeveled).Meets
            (Rely repeats) (fun r _ ↦ r = .ok ((rest.foldl (Engine.searchStep key e.levelOf
              (e.probeFile key snapshot)) st).newest.bind VersionedValue.value)) t :=
      fun ht route st ↦ .bind (meets_access fun u htu ↦
        ih ((ht.stable hinv htu).visited _) st.hotKeyCache)
    rw [List.foldl_cons, search]
    dsimp only
    change Meets _ _ (if found = true ∧ 0 < e.levelOf i then _ else _) s
    split
    next hskip =>
      rw [Engine.searchStep_skip hskip]
      exact hvisited h _ ⟨newest, found, cache⟩
    next hskip =>
      refine .bind ((meets_probe hinv h).mono ?_)
      rintro _ t ⟨rfl, ht⟩
      cases hprobe : e.probeFile key snapshot i with
      | absent =>
        rw [Engine.searchStep_absent hprobe]
        exact hvisited ht _ ⟨newest, found, cache⟩
      | found visible indexed =>
        rw [Engine.searchStep_found hskip hprobe]
        exact hvisited ht _ _

omit h in
theorem meets_fetchRange (he : e.Inv) (h : m.Holding e (i :: rest) s) :
    (fetchRange lower upper snapshot i).Meets (Rely repeats)
      (fun r t ↦ r = .ok (scanRows (e.rowsOf i) lower upper snapshot) ∧
        m.Holding e (i :: rest) t) s := by
  refine .bind (meets_read fun t hst ↦ ?_)
  have ht := h.stable hinv hst
  split
  next houtside =>
    rw [Engine.scanRows_of_outsideRange he (ht.live i (.head _))
      (ht.outsideRange hinv houtside)]
    exact meets_pure ⟨rfl, ht⟩
  next =>
    refine .bind ((meets_openSst hinv ht).mono ?_)
    rintro _ u ⟨rfl, hu⟩
    exact meets_pure ⟨rfl, hu⟩

theorem meets_fetchAll :
    (fetchAll snapshot i).Meets (Rely repeats)
      (fun r t ↦ r = .ok ((readAll (e.rowsOf i)).filter (·.version.visibleAt snapshot)) ∧
        m.Holding e (i :: rest) t) s := by
  refine .bind ((meets_openSst hinv h).mono ?_)
  rintro _ t ⟨rfl, ht⟩
  exact meets_pure ⟨rfl, ht⟩

omit h in
theorem meets_collect {fetch : ℕ → Program ReadState (Except EngineError (List VersionedRow))}
    {rowsAt : ℕ → List VersionedRow}
    (hfetch : ∀ i rest s, m.Holding e (i :: rest) s → (fetch i).Meets (Rely repeats)
      (fun r t ↦ r = .ok (rowsAt i) ∧ m.Holding e (i :: rest) t) s)
    {files : List ℕ} {visible : ExtTreeMap Bytes VersionedValue}
    (h : m.Holding e files s) :
    (collect fetch files visible).Meets (Rely repeats)
      (fun r _ ↦ r = .ok (files.foldl (fun visible i ↦ m.before.insertRows visible (rowsAt i))
        visible)) s := by
  induction files generalizing s visible with
  | nil => exact meets_pure rfl
  | cons i rest ih =>
    refine .bind ((hfetch i rest s h).mono ?_)
    rintro _ t ⟨rfl, ht⟩
    refine .bind (meets_read fun u htu ↦ .bind (meets_access fun v huv ↦ ?_))
    have hu := ht.stable hinv htu
    rw [hu.droppedTables]
    exact ih ((hu.stable hinv huv).visited _)

end Accesses

/-! ## The reads -/

section Reads

open Program

variable {repeats : Prop} {s : ReadState} {key lower upper : Bytes} {snapshot : ℕ} {m : Merge}
  (hread : m.before.ReadInv) (h : m.Waiting repeats s)

include hread h

omit h in
theorem inv_after : m.after.Inv := hread.inv.compactChunks m.splits

theorem meets_loadVersionSet {files : VersionSet → List ℕ}
    (hfiles : ∀ {e : Engine}, e.Inv → ∀ i ∈ files e.versionSet, e.IsLive i) :
    (loadVersionSet files).Meets (Rely repeats)
      (fun versionSet t ↦ ∃ e, (e = m.before ∨ repeats ∧ e = m.after) ∧
        versionSet = e.versionSet ∧ m.Holding e (files e.versionSet) t) s :=
  meets_access fun _ hst ↦
    (h.stable hread.inv hst).load (hfiles hread.inv) (hfiles (inv_after hread))

theorem meets_hotKeyHit (hrouted : repeats → m.before.hotKeyCache[key]? = none) :
    (hotKeyHit key snapshot).Meets (Rely repeats)
      (fun r t ↦ r = m.before.hotKeyHit key snapshot ∧ m.Waiting repeats t) s := by
  refine .bind (meets_read fun t hst ↦ ?_)
  have ht := h.stable hread.inv hst
  rw [ht.hotKeyCache, Engine.hotKeyHit]
  cases hroute : m.before.hotKeyCache[key]? with
  | none => exact meets_pure ⟨rfl, ht⟩
  | some f =>
    have hbefore : ∀ s, m.Waiting repeats s → m.Before s := fun s hs ↦
      hs.stage.resolve_right fun hafter ↦ by
        rw [hrouted hafter.1] at hroute
        cases hroute
    have hindex : (keyIndexFor f).Meets (Rely repeats)
        (fun r t ↦ r = m.before.keyIndexFor f ∧ m.Waiting repeats t) t := by
      refine meets_loadSidecar (fun _ _ hs hst ↦ hs.stable hread.inv hst)
        (fun s hs ↦ (hbefore s hs).routes f (hread.used key f hroute))
        (fun s index hs hfile ↦ ?_) ht
      exact ⟨hs.memtable, hs.droppedTables, hs.hotKeyCache, hs.loaded,
        .inl ((hbefore s hs).refills (refills_keyIndex hfile))⟩
    refine .bind (hindex.mono ?_)
    rintro _ u ⟨rfl, hu⟩
    exact meets_pure ⟨rfl, hu⟩

section

variable (hseq : m.before.commitSeq ≤ openEndedTs)

include hseq

theorem meets_get (hpinned : m.watermark ≤ snapshot)
    (hplain : repeats → m.before.Unambiguous key ∧ m.after.Unambiguous key) :
    (get key snapshot).Meets (Rely repeats)
      (fun r _ ↦ r = .ok (m.before.get key snapshot).1) s := by
  refine .bind (meets_read fun t hst ↦ ?_)
  have ht := h.stable hread.inv hst
  rw [ht.droppedTables]
  change Meets _ _ (if m.before.isDroppedPrefix key = true then _ else _) t
  split
  next hdropped =>
    apply meets_pure
    rw [Engine.get_fst, if_pos hdropped]
  next hdropped =>
    refine .bind (meets_read fun u htu ↦ ?_)
    have hu := ht.stable hread.inv htu
    rw [hu.memtable]
    cases hmemtable : m.before.memtable.get key snapshot with
    | some version =>
      apply meets_pure
      rw [Engine.get_fst, if_neg hdropped, hmemtable]
      rfl
    | none =>
      refine .bind ((meets_hotKeyHit hread hu fun hrepeats ↦
        (hplain hrepeats).1.unrouted).mono ?_)
      rintro _ v ⟨rfl, hv⟩
      cases hhit : m.before.hotKeyHit key snapshot with
      | some version =>
        apply meets_pure
        rw [Engine.get_fst, if_neg hdropped, hmemtable, hhit]
        rfl
      | none =>
        refine .bind ((meets_loadVersionSet hread hv fun he i ↦
          Engine.isLive_of_candidate he).mono ?_)
        rintro _ w ⟨e, hsource, rfl, hw⟩
        refine (meets_search hread.inv hw e.hotKeyCache).mono fun r _ hr ↦ hr.trans ?_
        have hmiss : m.before.isDroppedPrefix key = false := by simpa using hdropped
        rcases hsource with rfl | ⟨hrepeats, rfl⟩
        · rw [Engine.get_of_miss hmiss hmemtable hhit]
          rfl
        · obtain ⟨hplain, hplain'⟩ := hplain hrepeats
          have hunrouted : m.after.hotKeyHit key snapshot = none := by
            rw [Engine.hotKeyHit, hplain'.unrouted]
            rfl
          rw [← hread.get_compactChunks hseq m.splits hpinned hplain hplain']
          have hget := Engine.get_of_miss (e := m.after) hmiss hmemtable hunrouted
          exact congrArg Except.ok hget.symm

theorem meets_scanRange (hpinned : m.watermark ≤ snapshot) :
    (scanRange lower upper snapshot).Meets (Rely repeats)
      (fun r _ ↦ r = .ok (m.before.scanRange lower upper snapshot)) s := by
  refine .bind (meets_read fun t hst ↦ ?_)
  have ht := h.stable hread.inv hst
  refine .bind ((meets_loadVersionSet hread ht (fun _ i hi ↦ Engine.mem_levelFiles.mp hi)).mono ?_)
  rintro _ u ⟨e, hsource, rfl, hu⟩
  have he : e.Inv := by
    rcases hsource with rfl | ⟨-, rfl⟩
    · exact hread.inv
    · exact inv_after hread
  refine .bind ((meets_collect hread.inv (fun i rest s ↦ meets_fetchRange hread.inv he) hu).mono ?_)
  rintro _ v rfl
  apply meets_pure
  rw [ht.memtable]
  rcases hsource with rfl | ⟨-, rfl⟩
  · rw [Engine.scanRange_eq_collected he]
    rfl
  · have hsame : m.after.scanRange lower upper snapshot = m.before.scanRange lower upper snapshot :=
      hread.inv.scanRange_congr (inv_after hread) fun _ _ ↦
        hread.inv.showsValue_compactChunks hseq m.splits hpinned
    rw [← hsame]
    exact congrArg Except.ok (Engine.scanRange_eq_collected he).symm

theorem meets_scanAll (hpinned : m.watermark ≤ snapshot) :
    (scanAll snapshot).Meets (Rely repeats)
      (fun r _ ↦ r = .ok (m.before.scanAll snapshot)) s := by
  refine .bind (meets_read fun t hst ↦ ?_)
  have ht := h.stable hread.inv hst
  refine .bind ((meets_loadVersionSet hread ht fun _ i hi ↦ Engine.mem_levelFiles.mp hi).mono ?_)
  rintro _ u ⟨e, hsource, rfl, hu⟩
  refine .bind ((meets_collect hread.inv (fun i rest s ↦ meets_fetchAll hread.inv) hu).mono ?_)
  rintro _ v rfl
  apply meets_pure
  rw [ht.memtable]
  rcases hsource with rfl | ⟨-, rfl⟩
  · rfl
  · rw [← hread.inv.scanAll_congr (inv_after hread) fun _ _ ↦
      hread.inv.showsValue_compactChunks hseq m.splits hpinned]
    rfl

theorem meets_program
    (hpinned : m.watermark ≤ snapshot) (op : ReadOp) (hrepeats : repeats → m.Repeats op) :
    (op.program snapshot).Meets (Rely repeats)
      (fun r _ ↦ r = .ok (op.answer m.before snapshot)) s := by
  cases op with
  | get key =>
    refine .bind ((meets_get hread h hseq hpinned hrepeats).mono ?_)
    rintro _ t rfl
    exact meets_pure rfl
  | scanRange lower upper =>
    refine .bind ((meets_scanRange hread h hseq hpinned).mono ?_)
    rintro _ t rfl
    exact meets_pure rfl
  | scanAll =>
    refine .bind ((meets_scanAll hread h hseq hpinned).mono ?_)
    rintro _ t rfl
    exact meets_pure rfl

end

end Reads

end ReadState

/-! ## The start -/

namespace Merge

open ReadState

variable {m : Merge} {bloomCached keyIndexCached : ℕ → Bool} {e : Engine} {i : ℕ}

theorem backs_sidecars {α : Type} {files : ExtTreeMap ℕ α} {cached : ℕ → Bool} :
    (sidecars files cached).Backs i files[i]? := by
  refine ⟨rfl, ?_⟩
  rw [sidecars, ExtTreeMap.getElem?_filter']
  cases files[i]? with
  | none => exact .inl rfl
  | some a => cases cached i <;> simp

theorem backs_keyIndexes (hwritten : m.written[i]? = e.ssts[i]?) :
    (m.start bloomCached keyIndexCached).keyIndexes.Backs i (e.keyIndexFor i) := by
  have hfiles : (m.written.filterMap fun _ file ↦ file.keyIndex)[i]? = e.keyIndexFor i := by
    rw [ExtTreeMap.getElem?_filterMap', hwritten]
    rfl
  rw [← hfiles]
  exact backs_sidecars

theorem serves_start (hwritten : m.written[i]? = e.ssts[i]?)
    (hpresent : (e.ssts[i]?).isSome = true) :
    (m.start bloomCached keyIndexCached).Serves e i := by
  refine ⟨?_, ?_, backs_keyIndexes hwritten⟩
  · change (m.written.map fun _ file ↦ file.rows)[i]? = _
    obtain ⟨file, hfile⟩ := Option.isSome_iff_exists.mp hpresent
    rw [ExtTreeMap.getElem?_map, hwritten, Engine.rowsOf, hfile]
    rfl
  · have hfiles : (m.written.filterMap fun _ file ↦ file.bloom)[i]? = e.bloomFor i := by
      rw [ExtTreeMap.getElem?_filterMap', hwritten]
      rfl
    rw [← hfiles]
    exact backs_sidecars

theorem getElem?_written_of_lt (hi : i < m.before.versionSet.nextFileId) :
    m.written[i]? = m.before.ssts[i]? := by
  rw [written, outputs, Engine.getElem?_foldl_insert Engine.nodup_fileIds_chunkOutputs,
    Engine.find?_chunkOutputs_of_lt hi]
  rfl

theorem getElem?_written_of_after (h : m.before.Inv) (hi : m.after.IsLive i) :
    m.written[i]? = m.after.ssts[i]? := by
  have hkept : i ∉ m.inputs := fun hmem ↦ not_isLive_input h hmem hi
  rw [written, outputs, Engine.getElem?_foldl_insert Engine.nodup_fileIds_chunkOutputs, after,
    Engine.ssts_compactChunks, if_neg hkept]

theorem before_start (h : m.before.ReadInv) : m.Before (m.start bloomCached keyIndexCached) where
  versionSet := rfl
  commit := .inl rfl
  serves := fun i hi ↦ by
    obtain ⟨l, hl⟩ := hi
    exact serves_start (getElem?_written_of_lt (h.inv.versionSet.fresh hl)) (h.present i ⟨l, hl⟩)
  outputs := fun i hi ↦ by
    have hafter : m.after.ReadInv := h.compacts (.chunks m.env m.splits)
    exact serves_start (getElem?_written_of_after h.inv hi) (hafter.present i hi)
  routes := fun i hi ↦ backs_keyIndexes (getElem?_written_of_lt hi)

theorem waiting_start {repeats : Prop} (h : m.before.ReadInv) :
    m.Waiting repeats (m.start bloomCached keyIndexCached) :=
  ⟨rfl, rfl, rfl, rfl, .inl (before_start h)⟩

/-- Whatever the schedule, a read that the commit does not disturb returns what it
returns when no compaction runs. -/
theorem reads_survive_compaction {ops : List FaultyOp} {st : LoggedEngine}
    (hrun : run LoggedEngine.faultyStep .initial ops = some st) (m : Merge)
    (hbefore : m.before = st.engine) (hseq : m.before.commitSeq ≤ openEndedTs) {snapshot : ℕ}
    (hpinned : m.watermark ≤ snapshot) (bloomCached keyIndexCached : ℕ → Bool) (op : ReadOp)
    (turns : List (Interference.Turn CommitTurn))
    (hmeet : StepsMeet (Interference.step commitTurn) (Undisturbed (m.Repeats op))
      (m.start bloomCached keyIndexCached, op.program snapshot) turns) :
    Along (Interference.step commitTurn)
      (fun st ↦ st.2.finish st.1 = .ok (op.answer m.before snapshot))
      (m.start bloomCached keyIndexCached, op.program snapshot) turns := by
  have hread : m.before.ReadInv := hbefore ▸ LoggedEngine.readInv_of_run hrun
  have hmeets : (op.program snapshot).Meets (Rely (m.Repeats op))
      (fun r _ ↦ r = .ok (op.answer m.before snapshot)) (m.start bloomCached keyIndexCached) :=
    meets_program hread (waiting_start hread) hseq hpinned op fun h ↦ h
  refine along_of_meets ?_ hmeets hmeet
  intro s update next turn t hallows hturn
  exact ⟨turn, hallows, hturn⟩

/-! ## Schedules -/

def twoFlushes : List TableOp :=
  [.call (.write 1 [.put [107] [1]]), .call (.flush Engine.plainEnv 1000),
    .call (.write 2 [.put [107] [2]]), .call (.flush Engine.plainEnv 1000)]

theorem exists_run_twoFlushes :
    ∃ st, run LoggedEngine.faultyStep .initial (twoFlushes.map FaultyOp.table) =
        some st ∧ twoFlushes.foldl Engine.execTable Engine.initial = st.engine := by
  have hplain : ∀ op ∈ twoFlushes, op.Plain := by decide
  obtain ⟨st, hrun, hengine⟩ := LoggedEngine.initial.exists_run_plain hplain
  exact ⟨st, run_map (fun _ _ ↦ rfl) hrun, hengine.symm⟩

def twoFiles : Merge where
  before := twoFlushes.foldl Engine.execTable Engine.initial
  sourceLevel := 0
  targetLevel := 1
  watermark := 1
  chunks := [[0, 1]]
  env := fun _ ↦ Engine.plainEnv
  splits := fun i ↦ by
    have hinputs : (twoFlushes.foldl Engine.execTable Engine.initial).compactionInputs 0 1 =
        [0, 1] := by decide
    rw [hinputs]
    simp

def scanThenRetire : List (Interference.Turn CommitTurn) :=
  List.replicate 6 .program ++ List.replicate 6 (.environment .proceed) ++
    List.replicate 4 .program ++ List.replicate 5 (.environment .proceed)

theorem reads_survive_compaction_scan :
    ∃ st, run LoggedEngine.faultyStep .initial (twoFlushes.map FaultyOp.table) =
        some st ∧ twoFiles.before = st.engine ∧
      Along (Interference.step commitTurn)
        (fun st ↦ st.2.finish st.1 = .ok (.pairs [([107], [2])]))
        (twoFiles.start (fun _ ↦ false) (fun _ ↦ false),
          (ReadOp.scanRange [107] [108]).program 2) scanThenRetire ∧
      (run (Interference.step commitTurn)
        (twoFiles.start (fun _ ↦ false) (fun _ ↦ false),
          (ReadOp.scanRange [107] [108]).program 2) scanThenRetire).isSome = true := by
  obtain ⟨st, hrun, hengine⟩ := exists_run_twoFlushes
  refine ⟨st, hrun, hengine, ?_, by decide +kernel⟩
  have hmeet : StepsMeet (Interference.step commitTurn) (Undisturbed True)
      (twoFiles.start (fun _ ↦ false) (fun _ ↦ false),
        (ReadOp.scanRange [107] [108]).program 2) scanThenRetire := by
    decide +kernel
  have hanswer : (ReadOp.scanRange [107] [108]).answer twoFiles.before 2 =
      .pairs [([107], [2])] := by decide
  rw [← hanswer]
  exact reads_survive_compaction hrun twoFiles hengine (by decide) (by decide) _ _ _ _ hmeet

/-- Both reads have loaded the old version set when the commit retires its files. -/
theorem files_vanish_under_reads :
    ∃ st, run LoggedEngine.faultyStep .initial (twoFlushes.map FaultyOp.table) =
        some st ∧ twoFiles.before = st.engine ∧
      (ReadOp.get [107]).answer twoFiles.before 2 = .value (some [2]) ∧
      ((run (Interference.step commitTurn)
        (twoFiles.start (fun _ ↦ false) (fun _ ↦ false), (ReadOp.get [107]).program 2)
        (List.replicate 4 .program ++ List.replicate 11 (.environment .proceed))).map
          fun st ↦ st.2.finish st.1) = some (.error notFound) ∧
      (ReadOp.scanRange [107] [108]).answer twoFiles.before 2 = .pairs [([107], [2])] ∧
      ((run (Interference.step commitTurn)
        (twoFiles.start (fun _ ↦ false) (fun _ ↦ false),
          (ReadOp.scanRange [107] [108]).program 2)
        (List.replicate 3 .program ++ List.replicate 2 (.environment .proceed))).map
          fun st ↦ st.2.finish st.1) = some (.error notFound) := by
  obtain ⟨st, hrun, hengine⟩ := exists_run_twoFlushes
  exact ⟨st, hrun, hengine, by decide, by decide +kernel, by decide, by decide +kernel⟩

end Merge

end HatP
