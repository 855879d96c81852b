import HatP.Lib.Run
import HatP.Manifest.Snapshot

/-!
# Runs of the manifest

The manifest appends its batches to one file and replaces the file by a
snapshot when it has become long.  Opening it neither cuts a torn tail off nor
does an append after a failed one, so a batch that is acknowledged later can
stand behind bytes that the decoder does not get past.  The batches that are
appended to a file of whole frames, and those that cause a rewrite, are found
again.
-/

namespace HatP

open FramedLog Transition

namespace Manifest

/-! ## The manifest -/

/-- What an open manifest keeps in memory. -/
structure Session where
  versionSet : VersionSet
  editCount : ℕ

def snapshotThreshold : ℕ := 1024

def openManifest (file : Bytes) : Except EngineError Session := do
  let edits ← readManifestFile file
  return ⟨VersionSet.initial.applied edits, edits.length⟩

def Rewrites (session : Session) (edits : List VersionEdit) : Prop :=
  snapshotThreshold ≤ session.editCount + edits.length

instance (session : Session) (edits : List VersionEdit) : Decidable (Rewrites session edits) :=
  inferInstanceAs (Decidable (_ ≤ _))

/-- `append_batch` when every write succeeds: the answer, the memory and the
file.  A snapshot that cannot be encoded leaves the appended file. -/
def appendBatch (session : Session) (file : Bytes) (edits : List VersionEdit) :
    Except EngineError Unit × Session × Bytes :=
  if edits = [] then (.ok (), session, file)
  else
    match encodeEdits edits with
    | .error err => (.error err, session, file)
    | .ok bytes =>
      let versionSet := session.versionSet.applied edits
      let editCount := session.editCount + edits.length
      if Rewrites session edits then
        match encodeEdits versionSet.toEdits with
        | .error err => (.error err, ⟨versionSet, editCount⟩, file ++ bytes)
        | .ok snapshot => (.ok (), ⟨versionSet, 0⟩, snapshot)
      else (.ok (), ⟨versionSet, editCount⟩, file ++ bytes)

/-- A batch that was appended, with or without success. -/
inductive Attempt
  | acked (edits : List VersionEdit)
  | unacked (edits : List VersionEdit)

/-- The edits of all acknowledged batches in order, with leading parts of
unacknowledged ones in their places. -/
inductive Replays : List Attempt → List VersionEdit → Prop
  | nil : Replays [] []
  | acked {attempts : List Attempt} {edits : List VersionEdit} (batch : List VersionEdit) :
      Replays attempts edits → Replays (attempts ++ [.acked batch]) (edits ++ batch)
  | unacked {attempts : List Attempt} {edits part batch : List VersionEdit} :
      Replays attempts edits → part <+: batch →
        Replays (attempts ++ [.unacked batch]) (edits ++ part)

variable {attempts : List Attempt} {edits : List VersionEdit}

theorem Replays.of_acked {batch : List VersionEdit}
    (h : Replays (attempts ++ [.acked batch]) edits) :
    ∃ before, Replays attempts before ∧ edits = before ++ batch := by
  generalize hall : attempts ++ [.acked batch] = all at h
  cases h with
  | nil => exact absurd hall (List.concat_ne_nil _ _)
  | acked other hbefore =>
    obtain ⟨rfl, hlast⟩ := List.append_inj' hall rfl
    cases hlast
    exact ⟨_, hbefore, rfl⟩
  | unacked hbefore hpart =>
    obtain ⟨-, hlast⟩ := List.append_inj' hall rfl
    cases hlast

theorem Replays.refused (h : Replays attempts edits) (batch : List VersionEdit) :
    Replays (attempts ++ [.unacked batch]) edits := by
  have hnone := h.unacked (List.nil_prefix (l := batch))
  rwa [List.append_nil] at hnone

/-- The file, the memory while the manifest is open, and the batches so far. -/
structure ManifestLog where
  file : Bytes
  session : Option Session
  attempts : List Attempt

/-- An append, an append that fails after some of its bytes, a crash during an
append, and opening the manifest. -/
inductive ManifestOp
  | append (edits : List VersionEdit)
  | appendFailing (edits : List VersionEdit) (written : ℕ)
  | crash (edits : List VersionEdit) (written : ℕ)
  | reopen

namespace ManifestLog

variable {attempts : List Attempt} {frames : List VersionEdit} {s' : ManifestLog} {written : ℕ}

def initial : ManifestLog := ⟨[], none, []⟩

def step (s : ManifestLog) : ManifestOp → Option ManifestLog
  | .append edits =>
    s.session.map fun session ↦
      match appendBatch session s.file edits with
      | (.ok (), session, file) => ⟨file, some session, s.attempts ++ [.acked edits]⟩
      | (.error _, session, file) => ⟨file, some session, s.attempts ++ [.unacked edits]⟩
  | .appendFailing edits written =>
    s.session.bind fun session ↦
      match encodeEdits edits with
      | .error _ => some ⟨s.file, some session, s.attempts ++ [.unacked edits]⟩
      | .ok bytes =>
        if written < bytes.length then
          some ⟨s.file ++ bytes.take written, some session, s.attempts ++ [.unacked edits]⟩
        else none
  | .crash edits written =>
    s.session.bind fun _ ↦
      match encodeEdits edits with
      | .error _ => some ⟨s.file, none, s.attempts ++ [.unacked edits]⟩
      | .ok bytes =>
        if written ≤ bytes.length then
          some ⟨s.file ++ bytes.take written, none, s.attempts ++ [.unacked edits]⟩
        else none
  | .reopen =>
    match openManifest s.file with
    | .error _ => none
    | .ok session => some { s with session := some session }

/-- Opening the manifest recovers the effect of every acknowledged batch, in
order. -/
def AcksApplied (s : ManifestLog) : Prop :=
  ∃ session edits, openManifest s.file = .ok session ∧ Replays s.attempts edits ∧
    session.versionSet = VersionSet.initial.applied edits

def WholeFrames (s : ManifestLog) (frames : List VersionEdit) : Prop :=
  s.file = frames.flatMap frameBytes ∧ ∀ e ∈ frames, InRange e

/-- What is asked of a batch: fields of the source's types, file ids that have
a successor, and no empty prefix. -/
def Acceptable (edits : List VersionEdit) : Prop :=
  ∀ e ∈ edits, MachineSized e ∧ HasPrefix e ∧
    ∀ fileId level info, e = .addFile fileId level info → fileId + 1 < 2 ^ 64

/-- The condition on the steps.  An append finds a file of whole frames, or it
causes a rewrite of a version set in which every file has metadata.  An append
that is cut finds whole frames too, and the cut is clean. -/
def CleanStep (s : ManifestLog) : ManifestOp → Prop
  | .append edits => Acceptable edits ∧ (edits ≠ [] → ∀ session, s.session = some session →
      if Rewrites session edits then (session.versionSet.applied edits).Described
      else ∃ frames, s.WholeFrames frames)
  | .appendFailing edits written => Acceptable edits ∧ ∃ frames, s.WholeFrames frames ∧
      CleanCut (frames ++ edits) (s.file.length + written)
  | .crash edits written => Acceptable edits ∧ ∃ frames, s.WholeFrames frames ∧
      CleanCut (frames ++ edits) (s.file.length + written)
  | .reopen => True

/-! ## The invariant -/

/-- The frames of the file have the effect of the batches. -/
def FileReplays (file : Bytes) (attempts : List Attempt) : Prop :=
  ∃ frames edits, readManifestFile file = .ok frames ∧ (∀ e ∈ frames, Appendable e) ∧
    Replays attempts edits ∧ VersionSet.initial.applied frames = VersionSet.initial.applied edits

/-- So has the memory, but with other parts of the unacknowledged ones. -/
def SessionReplays (session : Session) (attempts : List Attempt) : Prop :=
  session.versionSet.Recordable ∧
    ∃ edits, Replays attempts edits ∧ session.versionSet = VersionSet.initial.applied edits

structure Inv (s : ManifestLog) : Prop where
  file : FileReplays s.file s.attempts
  session : ∀ session, s.session = some session → SessionReplays session s.attempts

variable {s : ManifestLog} {session : Session} {edits : List VersionEdit}

theorem inv_initial : Inv initial where
  file := ⟨[], [], rfl, fun _ h ↦ (by cases h), .nil, rfl⟩
  session _ h := by cases h

theorem openManifest_of_read {file : Bytes} (h : readManifestFile file = .ok frames) :
    openManifest file = .ok ⟨VersionSet.initial.applied frames, frames.length⟩ := by
  rw [openManifest, h]
  rfl

theorem Inv.acksApplied (h : Inv s) : s.AcksApplied := by
  obtain ⟨frames, edits, hread, -, hreplays, heffect⟩ := h.file
  exact ⟨_, edits, openManifest_of_read hread, hreplays, heffect⟩

theorem Acceptable.appendable (h : Acceptable edits) {bytes : Bytes}
    (hencode : encodeEdits edits = .ok bytes) : ∀ e ∈ edits, Appendable e := by
  intro e he
  obtain ⟨hsized, hnonempty, hnext⟩ := h e he
  exact ⟨⟨hsized, (encodeEdits_eq_ok_iff.mp hencode).1 e he, hnonempty⟩, hnext⟩

theorem FileReplays.whole (h : FileReplays s.file s.attempts) (hwhole : s.WholeFrames frames) :
    (∀ e ∈ frames, Appendable e) ∧ ∃ replayed, Replays s.attempts replayed ∧
      VersionSet.initial.applied frames = VersionSet.initial.applied replayed := by
  obtain ⟨found, replayed, hread, hfound, hreplays, heffect⟩ := h
  have hsame := readManifestFile_flatMap hwhole.2
  rw [← hwhole.1, hread] at hsame
  cases hsame
  exact ⟨hfound, replayed, hreplays, heffect⟩

theorem FileReplays.refused {file : Bytes}
    (h : FileReplays file attempts) (edits : List VersionEdit) :
    FileReplays file (attempts ++ [.unacked edits]) := by
  obtain ⟨frames, replayed, hread, hframes, hreplays, heffect⟩ := h
  exact ⟨frames, replayed, hread, hframes, hreplays.refused edits, heffect⟩

theorem SessionReplays.refused (h : SessionReplays session attempts)
    (edits : List VersionEdit) : SessionReplays session (attempts ++ [.unacked edits]) := by
  obtain ⟨hrecordable, replayed, hreplays, heffect⟩ := h
  exact ⟨hrecordable, replayed, hreplays.refused edits, heffect⟩

theorem SessionReplays.acked (h : SessionReplays session attempts)
    (hedits : ∀ e ∈ edits, Appendable e) (editCount : ℕ) :
    SessionReplays ⟨session.versionSet.applied edits, editCount⟩ (attempts ++ [.acked edits]) := by
  obtain ⟨hrecordable, replayed, hreplays, heffect⟩ := h
  refine ⟨hrecordable.applied hedits, replayed ++ edits, hreplays.acked edits, ?_⟩
  rw [VersionSet.applied_append, ← heffect]

theorem effect_append {replayed : List VersionEdit} (part : List VersionEdit)
    (heffect : VersionSet.initial.applied frames = VersionSet.initial.applied replayed) :
    VersionSet.initial.applied (frames ++ part) =
      VersionSet.initial.applied (replayed ++ part) := by
  rw [VersionSet.applied_append, VersionSet.applied_append, heffect]

theorem FileReplays.acked (h : FileReplays s.file s.attempts)
    (hwhole : s.WholeFrames frames) (hedits : ∀ e ∈ edits, Appendable e) :
    FileReplays (s.file ++ edits.flatMap frameBytes) (s.attempts ++ [.acked edits]) := by
  obtain ⟨hframes, replayed, hreplays, heffect⟩ := h.whole hwhole
  have hall : ∀ e ∈ frames ++ edits, Appendable e := by
    intro e he
    exact (List.mem_append.mp he).elim (hframes e) (hedits e)
  refine ⟨frames ++ edits, replayed ++ edits, ?_, hall, hreplays.acked edits,
    effect_append edits heffect⟩
  rw [hwhole.1, ← List.flatMap_append]
  exact readManifestFile_flatMap fun e he ↦ (hall e he).inRange

theorem FileReplays.cut (h : FileReplays s.file s.attempts)
    (hwhole : s.WholeFrames frames) (hedits : ∀ e ∈ edits, Appendable e)
    (hcut : CleanCut (frames ++ edits) (s.file.length + written)) :
    FileReplays (s.file ++ (edits.flatMap frameBytes).take written)
      (s.attempts ++ [.unacked edits]) := by
  obtain ⟨hframes, replayed, hreplays, heffect⟩ := h.whole hwhole
  have hpart : complete frameBytes written edits <+: edits :=
    prefix_complete written edits
  have hall : ∀ e ∈ frames ++ edits, Appendable e := by
    intro e he
    exact (List.mem_append.mp he).elim (hframes e) (hedits e)
  have hcomplete : complete frameBytes (s.file.length + written) (frames ++ edits) =
      frames ++ complete frameBytes written edits := by
    rw [complete_append, ← hwhole.1, if_pos (Nat.le_add_right _ _), Nat.add_sub_cancel_left]
  have hread := (readManifestFile_take (fun e he ↦ (hall e he).inRange) _).mpr hcut
  rw [hcomplete, List.flatMap_append, ← hwhole.1, List.take_length_add_append] at hread
  refine ⟨_, replayed ++ complete frameBytes written edits, hread, ?_,
    hreplays.unacked hpart, effect_append _ heffect⟩
  intro e he
  exact (List.mem_append.mp he).elim (hframes e) fun hnew ↦ hedits e (hpart.subset hnew)

theorem SessionReplays.rewritten (h : SessionReplays session attempts)
    (hdescribed : session.versionSet.Described) :
    FileReplays (session.versionSet.toEdits.flatMap frameBytes) attempts := by
  obtain ⟨hrecordable, replayed, hreplays, heffect⟩ := h
  have hall := hrecordable.appendable_toEdits
  exact ⟨_, replayed, readManifestFile_flatMap fun e he ↦ (hall e he).inRange, hall, hreplays,
    (hrecordable.applied_toEdits_iff.mpr hdescribed).trans heffect⟩

/-! ## Whole runs -/

/-- An append of nothing, a batch that is refused, and one that is written. -/
theorem step_append_cases (haccept : Acceptable edits)
    (hrecordable : ∀ session, s.session = some session → session.versionSet.Recordable)
    (hstep : s.step (.append edits) = some s') :
    ∃ session, s.session = some session ∧
      (edits = [] ∧ s' = ⟨s.file, some session, s.attempts ++ [.acked []]⟩ ∨
        edits ≠ [] ∧ s' = ⟨s.file, some session, s.attempts ++ [.unacked edits]⟩ ∨
        edits ≠ [] ∧ (∀ e ∈ edits, Appendable e) ∧ ∃ file editCount,
          s' = ⟨file, some ⟨session.versionSet.applied edits, editCount⟩,
            s.attempts ++ [.acked edits]⟩ ∧
          file = if Rewrites session edits then
            (session.versionSet.applied edits).toEdits.flatMap frameBytes
          else s.file ++ edits.flatMap frameBytes) := by
  obtain ⟨session, hsession, hresult⟩ := Option.map_eq_some_iff.mp hstep
  refine ⟨session, hsession, ?_⟩
  rw [appendBatch] at hresult
  by_cases hne : edits = []
  · subst hne
    exact .inl ⟨rfl, hresult.symm⟩
  rw [if_neg hne] at hresult
  cases hencode : encodeEdits edits with
  | error err =>
    rw [hencode] at hresult
    exact .inr (.inl ⟨hne, hresult.symm⟩)
  | ok bytes =>
    have hedits := haccept.appendable hencode
    have hfits : ∀ e ∈ (session.versionSet.applied edits).toEdits, Fits e := fun e he ↦
      (((hrecordable session hsession).applied hedits).appendable_toEdits e he).inRange.fits
    obtain ⟨-, rfl⟩ := encodeEdits_eq_ok_iff.mp hencode
    rw [hencode] at hresult
    refine .inr (.inr ⟨hne, hedits, ?_⟩)
    dsimp only at hresult
    split_ifs at hresult ⊢ with hrewrites
    · rw [encodeEdits_eq_ok_iff.mpr ⟨hfits, rfl⟩] at hresult
      exact ⟨_, _, hresult.symm, rfl⟩
    · exact ⟨_, _, hresult.symm, rfl⟩

section

variable (h : Inv s)

include h

theorem Inv.step_append (hclean : s.CleanStep (.append edits))
    (hstep : s.step (.append edits) = some s') : Inv s' := by
  obtain ⟨haccept, hcond⟩ := hclean
  obtain ⟨session, hsession, hcases⟩ := step_append_cases haccept
    (fun found hfound ↦ (h.session found hfound).1) hstep
  have hmemory := h.session session hsession
  rcases hcases with ⟨rfl, rfl⟩ | ⟨-, rfl⟩ | ⟨hne, hedits, file, editCount, rfl, hfile⟩
  · obtain ⟨frames, replayed, hread, hframes, hreplays, heffect⟩ := h.file
    refine ⟨⟨frames, replayed ++ [], hread, hframes, hreplays.acked [], ?_⟩, ?_⟩
    · rw [List.append_nil, heffect]
    · rintro _ ⟨⟩
      exact hmemory.acked (fun _ he ↦ absurd he List.not_mem_nil) session.editCount
  · refine ⟨h.file.refused edits, ?_⟩
    rintro _ ⟨⟩
    exact hmemory.refused edits
  · have hnext := hmemory.acked hedits editCount
    have hcond := hcond hne session hsession
    subst hfile
    refine ⟨?_, by rintro _ ⟨⟩; exact hnext⟩
    split_ifs at hcond ⊢ with hrewrites
    · exact hnext.rewritten hcond
    · obtain ⟨frames, hwhole⟩ := hcond
      exact h.file.acked hwhole hedits

theorem Inv.step_cut (haccept : Acceptable edits) (hwhole : s.WholeFrames frames)
    (hcut : CleanCut (frames ++ edits) (s.file.length + written)) {bytes : Bytes}
    (hencode : encodeEdits edits = .ok bytes) :
    FileReplays (s.file ++ bytes.take written) (s.attempts ++ [.unacked edits]) := by
  have hedits := haccept.appendable hencode
  rw [(encodeEdits_eq_ok_iff.mp hencode).2]
  exact h.file.cut hwhole hedits hcut

theorem Inv.step_appendFailing (hclean : s.CleanStep (.appendFailing edits written))
    (hstep : s.step (.appendFailing edits written) = some s') : Inv s' := by
  obtain ⟨haccept, frames, hwhole, hcut⟩ := hclean
  obtain ⟨session, hsession, hresult⟩ := Option.bind_eq_some_iff.mp hstep
  have hmemory : ∀ found, some session = some found →
      SessionReplays found (s.attempts ++ [.unacked edits]) := by
    rintro _ ⟨⟩
    exact (h.session session hsession).refused edits
  cases hencode : encodeEdits edits with
  | error err =>
    rw [hencode] at hresult
    cases hresult
    exact ⟨h.file.refused edits, hmemory⟩
  | ok bytes =>
    rw [hencode] at hresult
    obtain ⟨-, ⟨⟩⟩ := Option.ite_none_right_eq_some.mp hresult
    exact ⟨h.step_cut haccept hwhole hcut hencode, hmemory⟩

theorem Inv.step_crash (hclean : s.CleanStep (.crash edits written))
    (hstep : s.step (.crash edits written) = some s') : Inv s' := by
  obtain ⟨haccept, frames, hwhole, hcut⟩ := hclean
  obtain ⟨session, hsession, hresult⟩ := Option.bind_eq_some_iff.mp hstep
  cases hencode : encodeEdits edits with
  | error err =>
    rw [hencode] at hresult
    cases hresult
    exact ⟨h.file.refused edits, fun _ hnone ↦ by cases hnone⟩
  | ok bytes =>
    rw [hencode] at hresult
    obtain ⟨-, ⟨⟩⟩ := Option.ite_none_right_eq_some.mp hresult
    exact ⟨h.step_cut haccept hwhole hcut hencode, fun _ hnone ↦ by cases hnone⟩

theorem Inv.step_reopen (hstep : s.step .reopen = some s') : Inv s' := by
  obtain ⟨frames, replayed, hread, hframes, hreplays, heffect⟩ := h.file
  rw [step, openManifest_of_read hread] at hstep
  cases hstep
  refine ⟨h.file, ?_⟩
  rintro _ ⟨⟩
  exact ⟨VersionSet.recordable_initial.applied hframes, replayed, hreplays, heffect⟩

theorem Inv.step {op : ManifestOp} (hclean : s.CleanStep op)
    (hstep : s.step op = some s') : Inv s' := by
  cases op with
  | append edits => exact h.step_append hclean hstep
  | appendFailing edits written => exact h.step_appendFailing hclean hstep
  | crash edits written => exact h.step_crash hclean hstep
  | reopen => exact h.step_reopen hstep

end

/-- Opening the manifest recovers every acknowledged batch, in every state of a
run whose steps are clean. -/
theorem acksApplied_along {ops : List ManifestOp}
    (hmeet : StepsMeet ManifestLog.step CleanStep initial ops) :
    Along ManifestLog.step AcksApplied initial ops :=
  hmeet.along (I := Inv) (fun _ _ _ h hclean hstep ↦ h.step hclean hstep)
    (fun _ h ↦ h.acksApplied) inv_initial

/-- A flush, a crash in the tag of the next frame, and a restart. -/
theorem acksApplied_along_crashedFlush :
    Along ManifestLog.step AcksApplied initial
      [.reopen, .append [.addFile 0 0 ⟨[97], [122], 10, 100⟩, .nextFileId 1],
        .crash [.nextFileId 2] 5, .reopen] := by
  have haccept : ∀ n : ℕ, n < 2 ^ 64 → Acceptable [.nextFileId n] := by
    intro n hn e he
    rw [List.mem_singleton.mp he]
    exact ⟨hn, trivial, fun _ _ _ h ↦ by cases h⟩
  have hflush : Acceptable [.addFile 0 0 ⟨[97], [122], 10, 100⟩, .nextFileId 1] := by
    intro e he
    rcases List.mem_cons.mp he with rfl | he
    · refine ⟨⟨by decide, by decide, by decide, by decide⟩, trivial, ?_⟩
      rintro _ _ _ ⟨⟩
      decide
    · exact haccept 1 (by decide) e he
  have hrange := hflush.appendable rfl
  refine acksApplied_along ?_
  rintro _ ⟨⟩
  refine ⟨trivial, ?_⟩
  rintro s hs
  refine ⟨⟨hflush, ?_⟩, ?_⟩
  · rintro - _ ⟨⟩
    exact ⟨[], rfl, fun _ h ↦ by cases h⟩
  · cases hs
    rintro s hs
    refine ⟨⟨haccept 2 (by decide), [.addFile 0 0 ⟨[97], [122], 10, 100⟩, .nextFileId 1],
      ⟨rfl, fun e he ↦ (hrange e he).inRange⟩, ?_⟩, ?_⟩
    · decide +kernel
    · cases hs
      rintro s hs
      exact ⟨trivial, trivial⟩

theorem AcksApplied.le_nextFileId (h : s.AcksApplied) {n : ℕ}
    (hlast : s.attempts = attempts ++ [.acked [.nextFileId n]])
    (hread : readManifestFile s.file = .ok frames) :
    n ≤ (VersionSet.initial.applied frames).nextFileId := by
  obtain ⟨session, edits, hopen, hreplays, heffect⟩ := h
  rw [openManifest_of_read hread] at hopen
  cases hopen
  rw [hlast] at hreplays
  obtain ⟨before, -, rfl⟩ := hreplays.of_acked
  dsimp only at heffect
  rw [heffect, VersionSet.applied_append]
  exact le_max_right _ _

/-- The batch after a torn one is acknowledged and lost, whether the torn one
was a crash or an error, and an empty prefix makes the manifest unreadable. -/
theorem torn_batch_hides_next :
    (∃ s, run ManifestLog.step initial
        [.reopen, .crash [.nextFileId 1] 5, .reopen, .append [.nextFileId 7]] = some s ∧
      s.attempts = [.unacked [.nextFileId 1], .acked [.nextFileId 7]] ∧
      readManifestFile s.file = .ok [] ∧ ¬s.AcksApplied) ∧
    (∃ s, run ManifestLog.step initial
        [.reopen, .appendFailing [.nextFileId 1] 5, .append [.nextFileId 7]] = some s ∧
      s.attempts = [.unacked [.nextFileId 1], .acked [.nextFileId 7]] ∧
      readManifestFile s.file = .ok [] ∧ ¬s.AcksApplied) ∧
    ∃ s, run ManifestLog.step initial [.reopen, .append [.droppedPrefix []]] = some s ∧
      s.attempts = [.acked [.droppedPrefix []]] ∧
      (∃ err, openManifest s.file = .error err) ∧ ¬s.AcksApplied := by
  have hlost : ∀ s : ManifestLog, s.attempts = [.unacked [.nextFileId 1], .acked [.nextFileId 7]] →
      readManifestFile s.file = .ok [] → ¬s.AcksApplied := by
    intro s hattempts hread h
    have hlast : s.attempts = [.unacked [.nextFileId 1]] ++ [.acked [.nextFileId 7]] := hattempts
    exact absurd (h.le_nextFileId hlast hread) (by decide)
  have hrefused : ∀ (s : ManifestLog) (err : EngineError), openManifest s.file = .error err →
      ¬s.AcksApplied := by
    intro s err herr h
    obtain ⟨session, edits, hopen, -⟩ := h
    rw [herr] at hopen
    cases hopen
  refine ⟨⟨_, rfl, rfl, ?_, hlost _ rfl ?_⟩, ⟨_, rfl, rfl, ?_, hlost _ rfl ?_⟩,
    ⟨_, rfl, rfl, ⟨_, rfl⟩, hrefused _ _ rfl⟩⟩
  all_goals decide +kernel

end ManifestLog

end Manifest

end HatP
