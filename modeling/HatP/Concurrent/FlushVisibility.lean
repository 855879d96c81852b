import HatP.Concurrent.Coherent

/-!
# What a flush hides

A flush clears the memtable when it drains it, before its rows are in a file
that the version set knows.  From the drain to the manifest append the drained
versions are nowhere, and the second clear removes what was committed since.
-/

namespace HatP

open Newest Transition

namespace SharedEngine

variable {commit : Commit} {queue : List PendingWrite}

/-- The versions of `key` of acknowledged commits: what the engine `start` held
and what has been acknowledged since.  Versions collected before the start are
not the newest ones for any snapshot at or above the watermark. -/
def ackedStamps (start : Engine) (st : SharedEngine) (key : Bytes) : Set (ℕ × Option Bytes) :=
  start.heldStamps key ∪
    {p | ∃ commit ∈ st.acked, commit.commitTs = p.1 ∧ netEffect commit.mutations key = some p.2}

/-- For each key and snapshot at or above the watermark, the newest acknowledged
version is in the memtable or in a live file, and a read returns it unless a
commit that is not acknowledged yet has put a newer one there. -/
def CommitsVisible (start : Engine) (st : SharedEngine) : Prop :=
  ∀ key s p, st.engine.watermark ≤ s → IsNewestAt Prod.fst (ackedStamps start st key) s p →
    p ∈ st.engine.heldStamps key ∧
      (s < openEndedTs → ∃ v, st.engine.exactRead key s = some v ∧
        (v.stamp = p ∨ p.1 < v.beginTs ∧ v.stamp ∉ ackedStamps start st key))

def DrainsNothing (st : SharedEngine) : Action → Prop
  | .drain => st.engine.memtable.drainInto = []
  | _ => True

/-! ## The invariant -/

/-- The engine holds what has been acknowledged and, beside it, only versions
of the commit being installed. -/
structure HoldsAcked (start : Engine) (st : SharedEngine) : Prop where
  coherent : st.Coherent
  held : ∀ key, ∀ p ∈ ackedStamps start st key, p ∈ st.engine.heldStamps key
  acked : ∀ key, ∀ p ∈ st.engine.heldStamps key, p ∈ ackedStamps start st key ∨
    ∃ commit todo queue, st.writer = some (.installing commit todo queue) ∧ p.1 = commit.commitTs
  older : ∀ key, ∀ p ∈ ackedStamps start st key, ∀ commit todo queue,
    st.writer = some (.installing commit todo queue) → p.1 < commit.commitTs

variable {start : Engine} {st st' : SharedEngine}

theorem HoldsAcked.commitsVisible (h : st.HoldsAcked start) : st.CommitsVisible start := by
  intro key s p _ hp
  have hheld := h.held key p hp.1
  refine ⟨hheld, fun hs ↦ ?_⟩
  cases hread : st.engine.exactRead key s with
  | none =>
    have hlt := Engine.lt_of_exactRead_eq_none h.coherent.inv hs hread p hheld
    exact absurd hp.2.1 (not_le.mpr hlt)
  | some v =>
    have hv := Engine.exactRead_isNewestAt h.coherent.inv h.coherent.layered hs hread
    refine ⟨v, rfl, ?_⟩
    rcases (hv.2.2 p hheld hp.2.1).eq_or_lt with heq | hlt
    · exact Or.inl (h.coherent.inv.unique key v.stamp hv.1 p hheld heq.symm)
    · exact Or.inr ⟨hlt, fun hacked ↦ absurd (hp.2.2 v.stamp hacked hv.2.1) (not_le.mpr hlt)⟩

theorem Settled.holdsAcked (h : st.Settled) (hacked : st.acked = []) : st.HoldsAcked st.engine where
  coherent := h.coherent
  held key p hp := hp.resolve_right (by simp [hacked])
  acked key p hp := Or.inl (Or.inl hp)
  older key p _ commit todo queue hwriter := by simp [h.writer] at hwriter

/-! ## Steps -/

theorem ackedStamps_congr (start : Engine) (hacked : st'.acked = st.acked) (key : Bytes) :
    ackedStamps start st' key = ackedStamps start st key := by
  rw [ackedStamps, ackedStamps, hacked]

section

variable (h : st.HoldsAcked start)

include h

theorem HoldsAcked.of_same (hcoherent : st'.Coherent)
    (hheld : ∀ key, st'.engine.heldStamps key = st.engine.heldStamps key)
    (hacked : st'.acked = st.acked) (hwriter : ∀ commit todo queue,
      st'.writer = some (.installing commit todo queue) ↔
        st.writer = some (.installing commit todo queue)) : st'.HoldsAcked start := by
  have hstamps := ackedStamps_congr start hacked
  refine ⟨hcoherent, fun key p hp ↦ ?_, fun key p hp ↦ ?_, fun key p hp ↦ ?_⟩
  · rw [hstamps] at hp
    rw [hheld]
    exact h.held key p hp
  · rw [hheld] at hp
    simp only [hstamps, hwriter]
    exact h.acked key p hp
  · rw [hstamps] at hp
    simp only [hwriter]
    exact h.older key p hp

theorem HoldsAcked.takeTimestamp {w : PendingWrite} (hidle : st.Idle) :
    (st.takeTimestamp w queue).HoldsAcked start := by
  refine ⟨h.coherent.takeTimestamp, h.held, fun key p hp ↦ ?_,
    fun key p hp commit todo queue' hwriter ↦ ?_⟩
  · rcases h.acked key p hp with hp | ⟨commit, todo, queue', hwriter, -⟩
    · exact Or.inl hp
    · exact absurd hwriter (hidle commit todo queue')
  · obtain ⟨rfl, -, -⟩ := Writer.installing.inj (Option.some.inj hwriter)
    exact h.coherent.inv.begun key p (h.held key p hp)

theorem HoldsAcked.install {m : Mutation} {todo : List Mutation}
    (hwriter : st.writer = some (.installing commit (m :: todo) queue)) :
    (st.install commit m todo queue).HoldsAcked start := by
  refine ⟨h.coherent.install hwriter, fun key p hp ↦ ?_, fun key p hp ↦ ?_,
    fun key p hp commit' todo' queue' hwriter' ↦ ?_⟩
  · have hlt := h.older key p hp commit (m :: todo) queue hwriter
    exact (h.coherent.mem_heldStamps_install hwriter).mpr (Or.inr ⟨fun _ ↦ hlt.ne, h.held key p hp⟩)
  · rcases (h.coherent.mem_heldStamps_install hwriter).mp hp with ⟨-, rfl⟩ | ⟨-, hold⟩
    · exact Or.inr ⟨commit, todo, queue, rfl, rfl⟩
    · rcases h.acked key p hold with hp | ⟨commit', todo', queue', hwriter', hts⟩
      · exact Or.inl hp
      · obtain ⟨rfl, -, -⟩ := Writer.installing.inj (Option.some.inj (hwriter.symm.trans hwriter'))
        exact Or.inr ⟨commit, todo, queue, rfl, hts⟩
  · obtain ⟨rfl, -, -⟩ := Writer.installing.inj (Option.some.inj hwriter')
    exact h.older key p hp commit (m :: todo) queue hwriter

theorem HoldsAcked.acknowledge (hwriter : st.writer = some (.installing commit [] queue))
    (hcoherent : (st.acknowledge commit queue).Coherent) :
    (st.acknowledge commit queue).HoldsAcked start := by
  obtain ⟨done, hdone, hpartly⟩ := (h.coherent.inFlight commit [] queue hwriter).partly
  obtain rfl : commit.mutations = done := by simpa using hdone
  refine ⟨hcoherent, fun key p hp ↦ ?_, fun key p hp ↦ ?_,
    fun key p _ commit' todo' queue' hwriter' ↦ by simp [SharedEngine.acknowledge] at hwriter'⟩
  · rcases hp with hp | ⟨other, hother, hts, hvalue⟩
    · exact h.held key p (Or.inl hp)
    · rcases List.mem_cons.mp hother with rfl | hother
      · obtain ⟨ts, value⟩ := p
        obtain rfl : other.commitTs = ts := hts
        exact (hpartly key value).mpr hvalue
      · exact h.held key p (Or.inr ⟨other, hother, hts, hvalue⟩)
  · left
    rcases h.acked key p hp with (hp | ⟨other, hother, hvalue⟩) |
      ⟨commit', todo', queue', hwriter', hts⟩
    · exact Or.inl hp
    · exact Or.inr ⟨other, List.mem_cons_of_mem commit hother, hvalue⟩
    · obtain ⟨rfl, -, -⟩ := Writer.installing.inj (Option.some.inj (hwriter.symm.trans hwriter'))
      obtain ⟨ts, value⟩ := p
      obtain rfl : ts = commit.commitTs := hts
      exact Or.inr ⟨commit, .head _, rfl, (hpartly key value).mp hp⟩

theorem HoldsAcked.steps {action : Action}
    (hstep : st.Steps action st') (hdrain : st.DrainsNothing action) :
    st'.HoldsAcked start := by
  have hcoherent : st'.Coherent := by
    apply h.coherent.steps hstep
    rintro rfl
    exact hdrain
  cases hstep with
  | lockWrite hwriter hbatch | unlockWrite hwriter =>
    exact h.of_same hcoherent (fun _ ↦ rfl) rfl (by simp [hwriter])
  | appendWal hwriter =>
    exact h.of_same hcoherent (fun _ ↦ rfl) rfl (by simp [hwriter, SharedEngine.appendWal])
  | takeTimestamp hwriter => exact h.takeTimestamp (by simp [Idle, hwriter])
  | install hwriter => exact h.install hwriter
  | acknowledge hwriter => exact h.acknowledge hwriter hcoherent
  | drain hwriter => rwa [drain_of_empty hdrain]
  | lockCompaction hflusher hrows => simp [h.coherent.drained] at hrows
  | writeSst hflusher | appendManifest hflusher | clearMemtable hflusher | checkWalSize hflusher
  | resetWal hflusher => simp [h.coherent.flusher] at hflusher
  | beginRead | read hreader | dropReader hreader => 
    exact h.of_same hcoherent (fun _ ↦ rfl) rfl fun _ _ _ ↦ Iff.rfl

/-- The drain of a non-empty memtable hides its newest versions. -/
theorem drainInto_eq_nil_of_commitsVisible (hwriter : st.writer = none)
    (hvisible : st.drain.CommitsVisible start) : st.engine.memtable.drainInto = [] := by
  by_contra hne
  have hdrain := drain_of_ne hne
  rw [MemTable.drainInto_eq_nil_iff] at hne
  push Not at hne
  obtain ⟨key, hkey⟩ := hne
  obtain ⟨v, older, hversions⟩ := List.exists_cons_of_ne_nil hkey
  have hdesc := (st.engine.memtable.chain key).descending
  rw [hversions] at hdesc
  have hv : v.stamp ∈ stamps (st.engine.memtable.chain key).versions :=
    ⟨v, hversions ▸ List.mem_cons_self, rfl⟩
  have hacked : v.stamp ∈ ackedStamps start st key := by
    refine (h.acked key v.stamp (Or.inl hv)).resolve_right ?_
    simp [hwriter]
  have hnewest : ∀ q ∈ ackedStamps start st key, q.1 ≤ v.beginTs := by
    intro q hq
    rcases h.held key q hq with ⟨u, hu, rfl⟩ | hlive
    · rw [hversions] at hu
      rcases List.mem_cons.mp hu with rfl | hu
      · exact le_rfl
      · exact ((List.pairwise_cons.mp hdesc).1 u hu).le
    · exact (h.coherent.layered key v.stamp hv q hlive).le
  have hp : IsNewestAt Prod.fst (ackedStamps start st.drain key)
      (max v.beginTs st.drain.engine.watermark) v.stamp := by
    rw [hdrain]
    exact ⟨hacked, le_max_left _ _, fun q hq _ ↦ hnewest q hq⟩
  have hheld := (hvisible key _ v.stamp (le_max_right _ _) hp).1
  rw [hdrain] at hheld
  rcases hheld with hmem | hlive
  · change v.stamp ∈ stamps (st.engine.memtable.clear.chain key).versions at hmem
    simp [VersionChain.empty] at hmem
  · exact absurd (h.coherent.layered key v.stamp hv v.stamp hlive) (lt_irrefl _)

end

/-! ## Runs -/

/-- From any settled engine, acknowledged commits stay visible in every state of
a run exactly when every flush of the run finds the memtable empty. -/
theorem commitsVisible_along_iff {st : SharedEngine} (h : st.Settled) (hacked : st.acked = [])
    (actions : List Action) :
    Along step (CommitsVisible st.engine) st actions ↔ StepsMeet step DrainsNothing st actions := by
  apply along_iff_stepsMeet _ _ _ (h.holdsAcked hacked)
  · exact fun s action t hinv hdrain hstep ↦ hinv.steps (steps_of_step hstep) hdrain
  · exact fun s hinv ↦ hinv.commitsVisible
  · intro s action t hinv hstep hvisible
    cases steps_of_step hstep with
    | drain hwriter => exact drainInto_eq_nil_of_commitsVisible hinv hwriter hvisible
    | _ => trivial

theorem commitsVisible_along_iff_emptyFlush :
    Along step (CommitsVisible Engine.initial) (initial 0)
      (.drain :: commitSteps [1]) := by
  apply (commitsVisible_along_iff (settled_initial 0) rfl (.drain :: commitSteps [1])).mpr
  have hempty : (initial 0).engine.memtable.drainInto = [] := by decide
  rintro _ ⟨⟩
  refine ⟨hempty, ?_⟩
  iterate 6
    rintro _ ⟨⟩
    refine ⟨trivial, ?_⟩
  trivial

/-- A commit between the drain and the second clear of a flush. -/
def commitDuringFlush : List Action :=
  commitSteps [1] ++ [.drain, .lockCompaction 0, .writeSst ⟨100, 0, none, true⟩] ++
    commitSteps [2] ++ [.appendManifest, .clearMemtable, .checkWalSize]

theorem not_commitsVisible {st : SharedEngine} (key : Bytes)
    {value : Option Bytes} (hcommit : commit ∈ st.acked)
    (hvalue : netEffect commit.mutations key = some value)
    (hlast : ∀ other ∈ st.acked, other.commitTs ≤ commit.commitTs)
    (hts : 0 < commit.commitTs ∧ commit.commitTs < openEndedTs)
    (hwatermark : st.engine.watermark ≤ commit.commitTs)
    (hread : ∀ v ∈ st.engine.exactRead key commit.commitTs, v.beginTs < commit.commitTs) :
    ¬st.CommitsVisible Engine.initial := by
  intro hvisible
  have hp : IsNewestAt Prod.fst (ackedStamps Engine.initial st key) commit.commitTs
      (commit.commitTs, value) := by
    refine ⟨Or.inr ⟨commit, hcommit, rfl, hvalue⟩, le_rfl, fun q hq _ ↦ ?_⟩
    rcases hq with hstart | ⟨other, hother, hotherTs, -⟩
    · have hbegun : q.1 < 1 := Engine.inv_initial.begun key q hstart
      change q.1 ≤ commit.commitTs
      omega
    · exact hotherTs ▸ hlast other hother
  obtain ⟨v, hv, hreturned⟩ := (hvisible key commit.commitTs _ hwatermark hp).2 hts.2
  have hlt := hread v hv
  rcases hreturned with hstamp | ⟨hnewer, -⟩
  · exact absurd (congrArg Prod.fst hstamp) hlt.ne
  · exact absurd hnewer hlt.not_gt

/-- A flush hides what it drained until its file is registered, and its second
clear removes for good what was committed meanwhile. -/
theorem flush_hides_commits :
    (∃ st, run step (initial 1000) (commitSteps [1] ++ [.drain]) = some st ∧
      st.engine.watermark ≤ 1 ∧ st.engine.exactRead [107] 1 = none ∧
      ¬st.CommitsVisible Engine.initial) ∧
    ∃ st, run step (initial 1000) commitDuringFlush = some st ∧
      st.writer.isNone ∧ st.flusher.isNone ∧ st.drained = [] ∧ st.engine.watermark ≤ 2 ∧
      (st.engine.exactRead [107] 2).map VersionedValue.stamp = some (1, some [1]) ∧
      ¬st.CommitsVisible Engine.initial := by
  refine ⟨⟨_, rfl, by decide, by decide, ?_⟩,
    ⟨_, rfl, by decide, by decide, by decide, by decide, by decide, ?_⟩⟩
  · exact not_commitsVisible [107] (.head _) rfl (by decide) (by decide)
      (by decide) (by decide)
  · exact not_commitsVisible [107] (.head _) rfl (by decide) (by decide)
      (by decide) (by decide)

end SharedEngine

end HatP
