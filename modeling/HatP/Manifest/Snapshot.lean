import HatP.Manifest.Codec

/-!
# Rewriting the manifest

When the log has become long it is replaced by a list of edits that describes
the current version set.  Applying these edits to an empty version set gives
the version set back, provided that every file of a level has metadata: a file
that lost its metadata comes back with an empty key range instead.
-/

namespace HatP

open Std (ExtTreeMap ExtTreeSet LawfulEqCmp)

namespace VersionSet

def toEdits (vs : VersionSet) : List VersionEdit :=
  ((vs.levels.toList.flatMap fun level ↦ level.2.toList.map fun file ↦ (file, level.1)).map
    fun entry ↦ .addFile entry.1 entry.2 ((vs.fileMeta[entry.1]?).getD ⟨[], [], 0, 0⟩)) ++
      .nextFileId vs.nextFileId :: vs.dropped.toList.map .droppedPrefix

def Described (vs : VersionSet) : Prop :=
  ∀ i l, i ∈ vs.files l → ∃ info, vs.fileMeta[i]? = some info

end VersionSet

namespace Manifest

/-- An edit that a frame can carry and that leaves room for the next file id. -/
structure Appendable (edit : VersionEdit) : Prop where
  inRange : InRange edit
  next : ∀ fileId level info, edit = .addFile fileId level info → fileId + 1 < 2 ^ 64

end Manifest

namespace VersionSet

/-- What every version set satisfies that was built from appendable edits. -/
structure Recordable (vs : VersionSet) : Prop where
  nonempty : ∀ (l : ℕ) (files : ExtTreeSet ℕ), vs.levels[l]? = some files → ∃ i, i ∈ files
  listed : ∀ i info, vs.fileMeta[i]? = some info → ∃ l, i ∈ vs.files l
  fresh : ∀ i l, i ∈ vs.files l → i < vs.nextFileId
  level : ∀ i l, i ∈ vs.files l → l < 2 ^ 32
  info : ∀ (i : ℕ) (info : FileMeta), vs.fileMeta[i]? = some info →
    info.bytes < 2 ^ 64 ∧ info.createdAt < 2 ^ 64 ∧
      info.minKey.length ≤ Wal.maxU32 ∧ info.maxKey.length ≤ Wal.maxU32
  next : vs.nextFileId < 2 ^ 64
  dropped : ∀ p ∈ vs.dropped, p ≠ [] ∧ p.length ≤ Wal.maxU32

variable {vs : VersionSet}

theorem recordable_initial : initial.Recordable := by
  have hfiles : ∀ l, initial.files l = [] := by
    intro l
    simp [files, initial]
  refine ⟨?_, ?_, ?_, ?_, ?_, by decide, ?_⟩
  · intro l files h
    simp [initial] at h
  · intro i info h
    simp [initial] at h
  · intro i l h
    simp [hfiles] at h
  · intro i l h
    simp [hfiles] at h
  · intro i info h
    simp [initial] at h
  · intro p h
    exact absurd h ExtTreeSet.not_mem_empty

section

variable (h : vs.Recordable)

include h

theorem Recordable.addFile {fileId level : ℕ} {info : FileMeta}
    (he : Manifest.Appendable (.addFile fileId level info)) :
    (vs.apply (.addFile fileId level info)).Recordable where
  nonempty l files hfiles := by
    simp only [apply, ExtTreeMap.getElem?_alter] at hfiles
    split at hfiles
    · cases hfiles
      exact ⟨fileId, ExtTreeSet.mem_insert_self⟩
    · exact h.nonempty l files hfiles
  listed i other hother := by
    rw [getElem?_fileMeta_addFile] at hother
    split_ifs at hother with hi
    · exact ⟨level, (mem_files_addFile ..).mpr (.inr ⟨rfl, hi.symm⟩)⟩
    · obtain ⟨l, hl⟩ := h.listed i other hother
      exact ⟨l, (mem_files_addFile ..).mpr (.inl hl)⟩
  fresh i l hi := by
    rcases (mem_files_addFile ..).mp hi with hi | ⟨-, rfl⟩
    · exact lt_of_lt_of_le (h.fresh i l hi) (le_max_left _ _)
    · exact lt_of_lt_of_le (Nat.lt_succ_self _) (le_max_right _ _)
  level i l hi := by
    rcases (mem_files_addFile ..).mp hi with hi | ⟨rfl, -⟩
    · exact h.level i l hi
    · exact he.inRange.sized.2.1
  info i other hother := by
    rw [getElem?_fileMeta_addFile] at hother
    split_ifs at hother with hi
    · cases hother
      obtain ⟨-, -, hbytes, hcreated⟩ := he.inRange.sized
      exact ⟨hbytes, hcreated, he.inRange.fits.1, he.inRange.fits.2⟩
    · exact h.info i other hother
  next := max_lt h.next (he.next fileId level info rfl)
  dropped := h.dropped

theorem Recordable.deleteFile (fileId level : ℕ) :
    (vs.apply (.deleteFile fileId level)).Recordable where
  nonempty l files hfiles := by
    simp only [apply, ExtTreeMap.getElem?_alter] at hfiles
    split at hfiles
    · obtain ⟨old, -, hkept⟩ := Option.bind_eq_some_iff.mp hfiles
      split_ifs at hkept with hempty
      cases hkept
      by_contra hnone
      exact hempty (ExtTreeSet.isEmpty_iff.mpr
        (ExtTreeSet.eq_empty_iff_forall_not_mem.mpr fun i hi ↦ hnone ⟨i, hi⟩))
    · exact h.nonempty l files hfiles
  listed i other hother := by
    rw [getElem?_fileMeta_deleteFile] at hother
    split_ifs at hother with hi
    obtain ⟨l, hl⟩ := h.listed i other hother
    exact ⟨l, (mem_files_deleteFile ..).mpr ⟨hl, fun hboth ↦ hi hboth.2.symm⟩⟩
  fresh i l hi := h.fresh i l ((mem_files_deleteFile ..).mp hi).1
  level i l hi := h.level i l ((mem_files_deleteFile ..).mp hi).1
  info i other hother := by
    rw [getElem?_fileMeta_deleteFile] at hother
    split_ifs at hother with hi
    exact h.info i other hother
  next := h.next
  dropped := h.dropped

theorem Recordable.apply {edit : VersionEdit}
    (he : Manifest.Appendable edit) : (vs.apply edit).Recordable := by
  cases edit with
  | addFile fileId level info => exact h.addFile he
  | deleteFile fileId level => exact h.deleteFile fileId level
  | nextFileId fileId =>
    exact { h with
      fresh := fun i l hi ↦ lt_of_lt_of_le (h.fresh i l hi) (le_max_left _ _)
      next := max_lt h.next he.inRange.sized }
  | droppedPrefix tablePrefix =>
    refine { h with dropped := fun p hp ↦ ?_ }
    rcases ExtTreeSet.mem_insert.mp hp with heq | hp
    · rw [← LawfulEqCmp.eq_of_compare heq]
      exact ⟨he.inRange.hasPrefix, he.inRange.fits⟩
    · exact h.dropped p hp
  | undroppedPrefix tablePrefix =>
    exact { h with dropped := fun p hp ↦ h.dropped p (ExtTreeSet.mem_of_mem_erase hp) }

theorem Recordable.applied {edits : List VersionEdit}
    (hedits : ∀ e ∈ edits, Manifest.Appendable e) : (vs.applied edits).Recordable := by
  induction edits generalizing vs with
  | nil => exact h
  | cons edit edits ih =>
    exact ih (h.apply (hedits edit (.head _)))
      fun e he ↦ hedits e (List.mem_cons_of_mem edit he)

end

/-! ## The rewritten list -/

section Adds

variable (info : ℕ → FileMeta)

def adds (entries : List (ℕ × ℕ)) : List VersionEdit :=
  entries.map fun entry ↦ .addFile entry.1 entry.2 (info entry.1)

theorem mem_files_adds (vs : VersionSet) (entries : List (ℕ × ℕ)) (l i : ℕ) :
    i ∈ (vs.applied (adds info entries)).files l ↔ i ∈ vs.files l ∨ (i, l) ∈ entries := by
  induction entries generalizing vs with
  | nil => simp [adds, VersionSet.applied]
  | cons entry entries ih =>
    have hstep := ih (vs.apply (.addFile entry.1 entry.2 (info entry.1)))
    rw [mem_files_addFile] at hstep
    refine hstep.trans ?_
    rw [List.mem_cons, Prod.ext_iff, and_comm, or_assoc]

theorem getElem?_fileMeta_adds (vs : VersionSet) (entries : List (ℕ × ℕ)) (i : ℕ) :
    (vs.applied (adds info entries)).fileMeta[i]? =
      if i ∈ entries.map Prod.fst then some (info i) else vs.fileMeta[i]? := by
  induction entries generalizing vs with
  | nil => simp [adds, VersionSet.applied]
  | cons entry entries ih =>
    refine (ih (vs.apply (.addFile entry.1 entry.2 (info entry.1)))).trans ?_
    rw [getElem?_fileMeta_addFile, List.map_cons]
    by_cases hmem : i ∈ entries.map Prod.fst
    · simp [hmem]
    · by_cases heq : entry.1 = i
      · simp [heq]
      · simp [hmem, heq, Ne.symm heq]

theorem nextFileId_adds_le {vs : VersionSet} {bound : ℕ} (h : vs.nextFileId ≤ bound)
    {entries : List (ℕ × ℕ)} (hentries : ∀ entry ∈ entries, entry.1 < bound) :
    (vs.applied (adds info entries)).nextFileId ≤ bound := by
  induction entries generalizing vs with
  | nil => exact h
  | cons entry entries ih =>
    have hstep : (vs.apply (.addFile entry.1 entry.2 (info entry.1))).nextFileId ≤ bound :=
      max_le h (hentries entry (.head _))
    exact ih hstep fun other hother ↦ hentries other (List.mem_cons_of_mem entry hother)

theorem dropped_adds (vs : VersionSet) (entries : List (ℕ × ℕ)) :
    (vs.applied (adds info entries)).dropped = vs.dropped := by
  induction entries generalizing vs with
  | nil => rfl
  | cons entry entries ih => exact ih (vs.apply (.addFile entry.1 entry.2 (info entry.1)))

end Adds

theorem applied_drops (vs : VersionSet) (tables : List Bytes) :
    (vs.applied (tables.map .droppedPrefix)).levels = vs.levels ∧
      (vs.applied (tables.map .droppedPrefix)).fileMeta = vs.fileMeta ∧
      (vs.applied (tables.map .droppedPrefix)).nextFileId = vs.nextFileId ∧
      ∀ p, p ∈ (vs.applied (tables.map .droppedPrefix)).dropped ↔ p ∈ vs.dropped ∨ p ∈ tables := by
  induction tables generalizing vs with
  | nil => exact ⟨rfl, rfl, rfl, fun p ↦ by simp [VersionSet.applied]⟩
  | cons table tables ih =>
    obtain ⟨hlevels, hmeta, hnext, hdropped⟩ := ih (vs.apply (.droppedPrefix table))
    refine ⟨hlevels, hmeta, hnext, fun p ↦ (hdropped p).trans ?_⟩
    have hinsert : p ∈ (vs.apply (.droppedPrefix table)).dropped ↔ p = table ∨ p ∈ vs.dropped := by
      refine ExtTreeSet.mem_insert.trans (or_congr_left ?_)
      rw [LawfulEqCmp.compare_eq_iff_eq, eq_comm]
    rw [hinsert, List.mem_cons, or_comm (a := p = table), or_assoc]

/-- Two version sets without empty levels and with the same files have the same
levels. -/
theorem levels_ext {vs vs' : VersionSet} (h : vs.Recordable) (h' : vs'.Recordable)
    (hfiles : ∀ l i, i ∈ vs.files l ↔ i ∈ vs'.files l) : vs.levels = vs'.levels := by
  apply ExtTreeMap.ext_getElem?
  intro l
  have hl := hfiles l
  unfold files at hl
  cases hold : vs.levels[l]? with
  | none =>
    cases hnew : vs'.levels[l]? with
    | none => rfl
    | some files =>
      obtain ⟨i, hi⟩ := h'.nonempty l files hnew
      rw [hold, hnew] at hl
      have hmem := (hl i).mpr (ExtTreeSet.mem_toList.mpr hi)
      exact absurd (ExtTreeSet.mem_toList.mp hmem) ExtTreeSet.not_mem_empty
  | some files =>
    cases hnew : vs'.levels[l]? with
    | none =>
      obtain ⟨i, hi⟩ := h.nonempty l files hold
      rw [hold, hnew] at hl
      have hmem := (hl i).mp (ExtTreeSet.mem_toList.mpr hi)
      exact absurd (ExtTreeSet.mem_toList.mp hmem) ExtTreeSet.not_mem_empty
    | some files' =>
      rw [hold, hnew] at hl
      have hsame : files = files' := by
        apply ExtTreeSet.ext_mem
        intro i
        exact (ExtTreeSet.mem_toList.symm.trans (hl i)).trans ExtTreeSet.mem_toList
      rw [hsame]

theorem toEdits_eq (vs : VersionSet) :
    vs.toEdits = adds (fun i ↦ (vs.fileMeta[i]?).getD ⟨[], [], 0, 0⟩) vs.entries ++
      .nextFileId vs.nextFileId :: vs.dropped.toList.map .droppedPrefix := rfl

theorem Recordable.appendable_toEdits (h : vs.Recordable) :
    ∀ e ∈ vs.toEdits, Manifest.Appendable e := by
  intro e he
  rw [toEdits_eq] at he
  rcases List.mem_append.mp he with he | he
  · obtain ⟨⟨i, l⟩, hentry, rfl⟩ := List.mem_map.mp he
    have hmem := mem_entries.mp hentry
    have hid := h.fresh i l hmem
    have hnext := h.next
    have hinfo : ((vs.fileMeta[i]?).getD ⟨[], [], 0, 0⟩).bytes < 2 ^ 64 ∧
        ((vs.fileMeta[i]?).getD ⟨[], [], 0, 0⟩).createdAt < 2 ^ 64 ∧
        ((vs.fileMeta[i]?).getD ⟨[], [], 0, 0⟩).minKey.length ≤ Wal.maxU32 ∧
        ((vs.fileMeta[i]?).getD ⟨[], [], 0, 0⟩).maxKey.length ≤ Wal.maxU32 := by
      cases hget : vs.fileMeta[i]? with
      | none => exact ⟨by decide, by decide, by decide, by decide⟩
      | some info => exact h.info i info hget
    refine ⟨⟨⟨by omega, h.level i l hmem, hinfo.1, hinfo.2.1⟩, hinfo.2.2, trivial⟩, ?_⟩
    intro fileId level info heq
    cases heq
    omega
  · rcases List.mem_cons.mp he with rfl | he
    · exact ⟨⟨h.next, trivial, trivial⟩, fun _ _ _ heq ↦ by cases heq⟩
    · obtain ⟨p, hp, rfl⟩ := List.mem_map.mp he
      obtain ⟨hne, hlen⟩ := h.dropped p (ExtTreeSet.mem_toList.mp hp)
      exact ⟨⟨trivial, hlen, hne⟩, fun _ _ _ heq ↦ by cases heq⟩

theorem applied_append (vs : VersionSet) (first second : List VersionEdit) :
    vs.applied (first ++ second) = (vs.applied first).applied second :=
  List.foldl_append

theorem ext_of {vs vs' : VersionSet} (hlevels : vs.levels = vs'.levels)
    (hmeta : vs.fileMeta = vs'.fileMeta) (hnext : vs.nextFileId = vs'.nextFileId)
    (hdropped : vs.dropped = vs'.dropped) : vs = vs' := by
  obtain ⟨levels, fileMeta, nextFileId, dropped⟩ := vs
  cases hlevels
  cases hmeta
  cases hnext
  cases hdropped
  rfl

theorem applied_toEdits_eq (vs : VersionSet) :
    initial.applied vs.toEdits =
      ((initial.applied (adds (fun i ↦ (vs.fileMeta[i]?).getD ⟨[], [], 0, 0⟩) vs.entries)).apply
        (.nextFileId vs.nextFileId)).applied (vs.dropped.toList.map .droppedPrefix) := by
  rw [toEdits_eq, applied_append]
  rfl

theorem getElem?_fileMeta_toEdits (vs : VersionSet) (i : ℕ) :
    (initial.applied vs.toEdits).fileMeta[i]? =
      if i ∈ vs.entries.map Prod.fst then some ((vs.fileMeta[i]?).getD ⟨[], [], 0, 0⟩)
      else none := by
  rw [applied_toEdits_eq, (applied_drops _ _).2.1]
  refine (getElem?_fileMeta_adds (fun i ↦ (vs.fileMeta[i]?).getD ⟨[], [], 0, 0⟩) initial
    vs.entries i).trans ?_
  rw [initial, ExtTreeMap.getElem?_empty]

theorem Recordable.files_toEdits (h : vs.Recordable) :
    (initial.applied vs.toEdits).levels = vs.levels := by
  refine levels_ext (recordable_initial.applied h.appendable_toEdits) h fun l i ↦ ?_
  have hempty : i ∉ initial.files l := by
    simp [files, initial]
  rw [files, applied_toEdits_eq, (applied_drops _ _).1]
  refine (mem_files_adds (fun i ↦ (vs.fileMeta[i]?).getD ⟨[], [], 0, 0⟩) initial
    vs.entries l i).trans ?_
  rw [mem_entries]
  exact or_iff_right hempty

theorem Recordable.nextFileId_toEdits (h : vs.Recordable) :
    (initial.applied vs.toEdits).nextFileId = vs.nextFileId := by
  rw [applied_toEdits_eq, (applied_drops _ _).2.2.1]
  refine max_eq_right (nextFileId_adds_le _ (Nat.zero_le _) fun entry hentry ↦ ?_)
  exact h.fresh entry.1 entry.2 (mem_entries.mp hentry)

theorem dropped_toEdits (vs : VersionSet) : (initial.applied vs.toEdits).dropped = vs.dropped := by
  apply ExtTreeSet.ext_mem
  intro p
  rw [applied_toEdits_eq, (applied_drops _ _).2.2.2, ExtTreeSet.mem_toList]
  refine or_iff_right ?_
  change p ∉ (initial.applied (adds _ vs.entries)).dropped
  rw [dropped_adds]
  exact ExtTreeSet.not_mem_empty

/-- The rewritten manifest describes the same version set exactly when no file
of a level has lost its metadata. -/
theorem Recordable.applied_toEdits_iff (h : vs.Recordable) :
    initial.applied vs.toEdits = vs ↔ vs.Described := by
  constructor
  · intro heq i l hi
    have hlisted : i ∈ vs.entries.map Prod.fst :=
      List.mem_map.mpr ⟨(i, l), mem_entries.mpr hi, rfl⟩
    have hinfo := vs.getElem?_fileMeta_toEdits i
    rw [heq, if_pos hlisted] at hinfo
    exact ⟨_, hinfo⟩
  · intro hdescribed
    refine ext_of h.files_toEdits ?_ h.nextFileId_toEdits vs.dropped_toEdits
    apply ExtTreeMap.ext_getElem?
    intro i
    rw [getElem?_fileMeta_toEdits]
    split_ifs with hlisted
    · obtain ⟨⟨i', l⟩, hentry, rfl⟩ := List.mem_map.mp hlisted
      obtain ⟨found, hfound⟩ := hdescribed i' l (mem_entries.mp hentry)
      rw [hfound, Option.getD_some]
    · cases hget : vs.fileMeta[i]? with
      | none => rfl
      | some found =>
        obtain ⟨l, hl⟩ := h.listed i found hget
        exact absurd (List.mem_map.mpr ⟨(i, l), mem_entries.mpr hl, rfl⟩) hlisted

end VersionSet

end HatP
