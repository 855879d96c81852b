import HatP.Concurrent.Coherent

/-!
# Snapshots taken while commits install

A commit makes its timestamp visible to `begin_read` before its mutations are
in the memtable.  A snapshot taken in between sees the mutations appear one by
one; a snapshot taken when no commit is between its timestamp and its last
mutation reads one fixed state.
-/

namespace HatP

open Newest Transition

def Commit.Writes (commit : Commit) (key : Bytes) : Prop :=
  ∃ m ∈ commit.mutations, m.key = key

def Observes (result : Option (ℕ × Option Bytes)) (commit : Commit) : Prop :=
  ∃ p ∈ result, commit.commitTs ≤ p.1

/-- Reads of one key agree, and each commit is seen in all the keys it writes
that were read or in none. -/
structure Reader.Stable (reader : Reader) (commits : List Commit) : Prop where
  repeatable : ∀ key result result', (key, result) ∈ reader.log → (key, result') ∈ reader.log →
    result = result'
  atomic : ∀ commit ∈ commits,
    (∀ key result, (key, result) ∈ reader.log → commit.Writes key → Observes result commit) ∨
      ∀ key result, (key, result) ∈ reader.log → commit.Writes key → ¬Observes result commit

namespace SharedEngine

variable {key : Bytes} {s : ℕ}

/-- Every reader is stable with respect to every commit that has a timestamp. -/
def SnapshotsStable (st : SharedEngine) : Prop :=
  ∀ reader ∈ st.readers, reader.snapshot < openEndedTs → reader.Stable st.published

def Installing (st : SharedEngine) (commit : Commit) : Prop :=
  ∃ m todo queue, st.writer = some (.installing commit (m :: todo) queue)

/-- A snapshot is taken only when no commit is between its timestamp and its
last mutation. -/
def BeginsBetweenCommits (st : SharedEngine) : Action → Prop
  | .beginRead => ∀ commit, ¬st.Installing commit
  | _ => True

/-! ## Fixed readers -/

/-- What a read at `s` has to return: the newest version held. -/
def Describes (e : Engine) (key : Bytes) (s : ℕ) : Option (ℕ × Option Bytes) → Prop
  | some p => IsNewestAt Prod.fst (e.heldStamps key) s p
  | none => ∀ p ∈ e.heldStamps key, s < p.1

/-- Nothing that the reader can see will change, and its log tells what it can
see.  The first snapshot a reader of the run can have is `base`. -/
structure ReaderFixed (base : ℕ) (st : SharedEngine) (reader : Reader) : Prop where
  above : base ≤ reader.snapshot
  taken : reader.snapshot < st.engine.commitSeq
  later : ∀ commit, st.Installing commit → reader.snapshot < commit.commitTs
  log : reader.snapshot < openEndedTs → ∀ key result, (key, result) ∈ reader.log →
    Describes st.engine key reader.snapshot result

/-- The keys of the commit have a version that is at least as new and that
every reader at or after the commit can see. -/
def Complete (base : ℕ) (st : SharedEngine) (commit : Commit) : Prop :=
  ∀ key, commit.Writes key → ∃ q ∈ st.engine.heldStamps key,
    commit.commitTs ≤ q.1 ∧ q.1 ≤ max base commit.commitTs

structure Fixed (base : ℕ) (st : SharedEngine) : Prop where
  coherent : st.Coherent
  base_lt : base < st.engine.commitSeq
  readers : ∀ reader ∈ st.readers, st.ReaderFixed base reader
  published : ∀ commit ∈ st.published, st.Installing commit ∨ st.Complete base commit

variable {base : ℕ} {st st' : SharedEngine} {result : Option (ℕ × Option Bytes)}

theorem Describes.unique {e : Engine} (h : e.Inv)
    {result' : Option (ℕ × Option Bytes)} (hresult : Describes e key s result)
    (hresult' : Describes e key s result') : result = result' := by
  cases result with
  | none =>
    cases result' with
    | none => rfl
    | some p => exact absurd hresult'.2.1 (not_le.mpr (hresult p hresult'.1))
  | some p =>
    cases result' with
    | none => exact absurd hresult.2.1 (not_le.mpr (hresult' p hresult.1))
    | some q =>
      have hts : p.1 = q.1 := hresult.ts_eq hresult'
      exact congrArg some (h.unique key p hresult.1 q hresult'.1 hts)

theorem Describes.congr {e e' : Engine}
    (hsame : ∀ p, p.1 ≤ s → (p ∈ e.heldStamps key ↔ p ∈ e'.heldStamps key))
    (h : Describes e key s result) : Describes e' key s result := by
  cases result with
  | none =>
    intro p hp
    by_contra hle
    exact hle (h p ((hsame p (not_lt.mp hle)).mpr hp))
  | some p => exact (isNewestAt_congr hsame).mp h

theorem describes_exactRead (h : st.Coherent) (hs : s < openEndedTs) :
    Describes st.engine key s ((st.engine.exactRead key s).map VersionedValue.stamp) := by
  cases hread : st.engine.exactRead key s with
  | none => exact Engine.lt_of_exactRead_eq_none h.inv hs hread
  | some v => exact Engine.exactRead_isNewestAt h.inv h.layered hs hread

theorem Fixed.snapshotsStable (h : st.Fixed base) : st.SnapshotsStable := by
  intro reader hreader hs
  have hfixed := h.readers reader hreader
  refine ⟨fun key result result' hresult hresult' ↦ ?_, fun commit hcommit ↦ ?_⟩
  · exact (hfixed.log hs key result hresult).unique h.coherent.inv
      (hfixed.log hs key result' hresult')
  by_cases hvisible : commit.commitTs ≤ reader.snapshot
  · left
    intro key result hresult hwrites
    rcases h.published commit hcommit with hinstalling | hcomplete
    · exact absurd hvisible (not_le.mpr (hfixed.later commit hinstalling))
    · obtain ⟨q, hq, hle, hmax⟩ := hcomplete key hwrites
      have hqs : q.1 ≤ reader.snapshot := hmax.trans (max_le hfixed.above hvisible)
      have hdescribes := hfixed.log hs key result hresult
      cases result with
      | none => exact absurd hqs (not_le.mpr (hdescribes q hq))
      | some p => exact ⟨p, rfl, hle.trans (hdescribes.2.2 q hq hqs)⟩
  · right
    rintro key result hresult - ⟨p, hp, hle⟩
    have hdescribes := hfixed.log hs key result hresult
    obtain rfl : result = some p := hp
    exact hvisible (hle.trans hdescribes.2.1)

/-! ## Steps -/

theorem ReaderFixed.of_same {reader : Reader} (h : st.ReaderFixed base reader)
    (hheld : ∀ key, st'.engine.heldStamps key = st.engine.heldStamps key)
    (hseq : st'.engine.commitSeq = st.engine.commitSeq)
    (hinstalling : ∀ commit, st'.Installing commit → st.Installing commit) :
    st'.ReaderFixed base reader where
  above := h.above
  taken := hseq ▸ h.taken
  later commit hcommit := h.later commit (hinstalling commit hcommit)
  log hs key result hresult := by
    refine (h.log hs key result hresult).congr fun p _ ↦ ?_
    rw [hheld]

theorem Complete.of_same {commit : Commit} (h : st.Complete base commit)
    (hheld : ∀ key, st'.engine.heldStamps key = st.engine.heldStamps key) :
    st'.Complete base commit := by
  intro key hwrites
  rw [hheld]
  exact h key hwrites

section

variable (h : st.Fixed base) {queue : List PendingWrite}

include h

theorem Fixed.of_same (hcoherent : st'.Coherent)
    (hheld : ∀ key, st'.engine.heldStamps key = st.engine.heldStamps key)
    (hseq : st'.engine.commitSeq = st.engine.commitSeq)
    (hinstalling : ∀ commit, st'.Installing commit ↔ st.Installing commit)
    (hpublished : st'.published = st.published)
    (hreaders : ∀ reader ∈ st'.readers, st.ReaderFixed base reader) : st'.Fixed base where
  coherent := hcoherent
  base_lt := hseq ▸ h.base_lt
  readers reader hreader :=
    (hreaders reader hreader).of_same hheld hseq fun commit ↦ (hinstalling commit).mp
  published commit hcommit := by
    rw [hpublished] at hcommit
    rcases h.published commit hcommit with hbusy | hcomplete
    · exact Or.inl ((hinstalling commit).mpr hbusy)
    · exact Or.inr (hcomplete.of_same hheld)

theorem Fixed.takeTimestamp {w : PendingWrite}
    (hwriter : st.writer = some (.publishing (w :: queue))) :
    (st.takeTimestamp w queue).Fixed base := by
  have hidle : ∀ commit, ¬st.Installing commit := by simp [Installing, hwriter]
  obtain ⟨m, todo, hmutations⟩ := List.exists_cons_of_ne_nil w.nonempty
  refine ⟨h.coherent.takeTimestamp, h.base_lt.trans (Nat.lt_succ_self _), fun reader hreader ↦ ?_,
    fun commit hcommit ↦ ?_⟩
  · have hfixed := h.readers reader hreader
    refine ⟨hfixed.above, hfixed.taken.trans (Nat.lt_succ_self _), ?_, hfixed.log⟩
    rintro commit ⟨m, todo, queue', hbusy⟩
    obtain ⟨rfl, -, -⟩ := Writer.installing.inj (Option.some.inj hbusy)
    exact hfixed.taken
  · rcases List.mem_cons.mp hcommit with rfl | hcommit
    · left
      refine ⟨m, todo, queue, ?_⟩
      simp [SharedEngine.takeTimestamp, hmutations]
    · exact Or.inr ((h.published commit hcommit).resolve_left (hidle commit))

theorem Fixed.install {commit : Commit} {m : Mutation} {todo : List Mutation}
    (hwriter : st.writer = some (.installing commit (m :: todo) queue)) :
    (st.install commit m todo queue).Fixed base := by
  have hcoherent := h.coherent.install hwriter
  have hbusy : st.Installing commit := ⟨m, todo, queue, hwriter⟩
  -- Installing replaces at most a version with the same timestamp.
  have hkeep : ∀ key, ∀ q ∈ st.engine.heldStamps key,
      ∃ q' ∈ (st.install commit m todo queue).engine.heldStamps key, q'.1 = q.1 := by
    intro key q hq
    by_cases hsame : m.key = key ∧ q.1 = commit.commitTs
    · exact ⟨(commit.commitTs, m.value),
        (h.coherent.mem_heldStamps_install hwriter).mpr (Or.inl ⟨hsame.1, rfl⟩), hsame.2.symm⟩
    · exact ⟨q, (h.coherent.mem_heldStamps_install hwriter).mpr
        (Or.inr ⟨fun hkey hts ↦ hsame ⟨hkey, hts⟩, hq⟩), rfl⟩
  refine ⟨hcoherent, h.base_lt, fun reader hreader ↦ ?_, fun other hother ↦ ?_⟩
  · have hfixed := h.readers reader hreader
    have hlater := hfixed.later commit hbusy
    refine ⟨hfixed.above, hfixed.taken, ?_, fun hs key result hresult ↦ ?_⟩
    · rintro other ⟨m', todo', queue', hwriter'⟩
      obtain ⟨rfl, -, -⟩ := Writer.installing.inj (Option.some.inj hwriter')
      exact hlater
    · refine (hfixed.log hs key result hresult).congr fun p hp ↦ ?_
      have hne : p.1 ≠ commit.commitTs := (hp.trans_lt hlater).ne
      rw [h.coherent.mem_heldStamps_install hwriter]
      constructor
      · exact fun hold ↦ Or.inr ⟨fun _ ↦ hne, hold⟩
      · rintro (⟨-, rfl⟩ | ⟨-, hold⟩)
        · exact absurd rfl hne
        · exact hold
  · rcases h.published other hother with ⟨m', todo', queue', hwriter'⟩ | hcomplete
    · obtain ⟨rfl, -, -⟩ := Writer.installing.inj (Option.some.inj (hwriter.symm.trans hwriter'))
      cases todo with
      | cons next rest => exact Or.inl ⟨next, rest, queue, rfl⟩
      | nil =>
        right
        obtain ⟨done, hdone, hpartly⟩ := (hcoherent.inFlight commit [] queue rfl).partly
        obtain rfl : commit.mutations = done := by simpa using hdone
        rintro key ⟨write, hwrite, hkey⟩
        obtain ⟨value, hvalue⟩ := exists_netEffect hwrite hkey
        exact ⟨(commit.commitTs, value), (hpartly key value).mpr hvalue, le_rfl, le_max_right _ _⟩
    · right
      intro key hwrites
      obtain ⟨q, hq, hle, hmax⟩ := hcomplete key hwrites
      obtain ⟨q', hq', hts⟩ := hkeep key q hq
      exact ⟨q', hq', hts ▸ hle, hts ▸ hmax⟩

theorem Fixed.steps {action : Action} (hstep : st.Steps action st')
    (hbegin : st.BeginsBetweenCommits action) (hflush : action ≠ .drain) : st'.Fixed base := by
  have hcoherent : st'.Coherent := h.coherent.steps hstep fun hdrain ↦ absurd hdrain hflush
  cases hstep with
  | lockWrite hwriter hbatch | unlockWrite hwriter =>
    exact h.of_same hcoherent (fun _ ↦ rfl) rfl (by simp [Installing, hwriter]) rfl h.readers
  | appendWal hwriter =>
    exact h.of_same hcoherent (fun _ ↦ rfl) rfl
      (by simp [Installing, hwriter, SharedEngine.appendWal]) rfl h.readers
  | takeTimestamp hwriter => exact h.takeTimestamp hwriter
  | install hwriter => exact h.install hwriter
  | acknowledge hwriter =>
    exact h.of_same hcoherent (fun _ ↦ rfl) rfl
      (by simp [Installing, hwriter, SharedEngine.acknowledge]) rfl h.readers
  | drain hwriter => exact absurd rfl hflush
  | lockCompaction hflusher hrows => simp [h.coherent.drained] at hrows
  | writeSst hflusher | appendManifest hflusher | clearMemtable hflusher | checkWalSize hflusher
  | resetWal hflusher => simp [h.coherent.flusher] at hflusher
  | beginRead =>
    apply h.of_same hcoherent (fun _ ↦ rfl) rfl (fun _ ↦ Iff.rfl) rfl
    intro reader hreader
    rcases List.mem_append.mp hreader with hreader | hreader
    · exact h.readers reader hreader
    · obtain rfl := List.mem_singleton.mp hreader
      have hstarted := h.coherent.started
      have hbase := h.base_lt
      refine ⟨Nat.le_sub_one_of_lt hbase, Nat.sub_one_lt_of_lt hstarted,
        fun commit hbusy ↦ absurd hbusy (hbegin commit), fun _ key result hresult ↦ ?_⟩
      simp at hresult
  | read hreader =>
    apply h.of_same hcoherent (fun _ ↦ rfl) rfl (fun _ ↦ Iff.rfl) rfl
    intro other hother
    rcases List.mem_or_eq_of_mem_set hother with hother | rfl
    · exact h.readers other hother
    · have hfixed := h.readers _ (List.mem_of_getElem? hreader)
      refine ⟨hfixed.above, hfixed.taken, hfixed.later, fun hs key' result hresult ↦ ?_⟩
      rcases List.mem_cons.mp hresult with heq | hresult
      · obtain ⟨rfl, rfl⟩ := Prod.mk.inj heq
        exact describes_exactRead h.coherent hs
      · exact hfixed.log hs key' result hresult
  | dropReader hreader =>
    apply h.of_same hcoherent (fun _ ↦ rfl) rfl (fun _ ↦ Iff.rfl) rfl
    intro reader hreader
    exact h.readers reader ((List.eraseIdx_sublist _ _).mem hreader)

end

/-! ## Runs -/

/-- From any settled engine without readers, whose past commits it still shows,
readers are stable in every state of a run without flushes in which every
snapshot is taken between commits. -/
theorem snapshotsStable_along {st : SharedEngine} (h : st.Settled) (hreaders : st.readers = [])
    (hpast : ∀ commit ∈ st.published, ∀ key, commit.Writes key →
      ∃ q ∈ st.engine.heldStamps key, commit.commitTs ≤ q.1)
    (actions : List Action) (hflush : ∀ action ∈ actions, action ≠ .drain)
    (hbegin : StepsMeet step BeginsBetweenCommits st actions) :
    Along step SnapshotsStable st actions := by
  have hstart : st.Fixed (st.engine.commitSeq - 1) := by
    refine ⟨h.coherent, Nat.sub_one_lt_of_lt h.started, fun reader hreader ↦ ?_,
      fun commit hcommit ↦ Or.inr fun key hwrites ↦ ?_⟩
    · simp [hreaders] at hreader
    · obtain ⟨q, hq, hle⟩ := hpast commit hcommit key hwrites
      have hbegun := h.inv.begun key q hq
      exact ⟨q, hq, hle, le_max_of_le_left (Nat.le_sub_one_of_lt hbegun)⟩
  apply StepsMeet.along _ _ hstart (hbegin.and_of_forall_mem hflush)
  · exact fun s action t hinv hcond hstep ↦ hinv.steps (steps_of_step hstep) hcond.1 hcond.2
  · exact fun s hinv ↦ hinv.snapshotsStable

def twoKeys : PendingWrite := .ofCons 0 (.put [107] [1]) [.put [108] [2]]

def readAfterCommit : List Action :=
  [.lockWrite [twoKeys], .appendWal, .takeTimestamp, .install, .install, .acknowledge,
    .unlockWrite, .beginRead, .read 0 [107], .read 0 [108]]

theorem snapshotsStable_along_readAfterCommit :
    Along step SnapshotsStable (initial 0) readAfterCommit ∧
      ∃ st, run step (initial 0) readAfterCommit = some st ∧
        st.readers.map Reader.log =
          [[([108], some (1, some [2])), ([107], some (1, some [1]))]] := by
  refine ⟨snapshotsStable_along (settled_initial 0) rfl ?_ readAfterCommit ?_ ?_, _, rfl, by decide⟩
  · intro commit hcommit
    simp [initial] at hcommit
  · simp [readAfterCommit]
  · iterate 7
      rintro _ ⟨⟩
      refine ⟨trivial, ?_⟩
    rintro _ ⟨⟩
    refine ⟨?_, ?_⟩
    · rintro commit ⟨m, todo, queue, hwriter⟩
      simp at hwriter
    iterate 2
      rintro _ ⟨⟩
      refine ⟨trivial, ?_⟩
    trivial

/-- The snapshot is taken after the commit has its timestamp; reads go on while
it installs. -/
def readDuringCommit : List Action :=
  [.lockWrite [twoKeys], .appendWal, .takeTimestamp, .beginRead, .read 0 [107], .install,
    .read 0 [107], .read 0 [108]]

/-- The first key changes under the reader, and the commit is seen in the first
key and not in the second. -/
theorem snapshot_during_commit_unstable :
    ∃ st, run step (initial 0) readDuringCommit = some st ∧
      st.readers.map Reader.log =
        [[([108], none), ([107], some (1, some [1])), ([107], none)]] ∧
      ¬st.SnapshotsStable := by
  have hunstable : ∀ st : SharedEngine, st.readers = [⟨1, [([108], none),
      ([107], some (1, some [1])), ([107], none)]⟩] → ¬st.SnapshotsStable := by
    intro st hreaders hstable
    have hreader := hstable _ (hreaders ▸ List.mem_cons_self) (by decide)
    have heq := hreader.repeatable [107] none (some (1, some [1])) (by decide) (by decide)
    simp at heq
  exact ⟨_, rfl, by decide, hunstable _ (by rfl)⟩

end SharedEngine

end HatP
