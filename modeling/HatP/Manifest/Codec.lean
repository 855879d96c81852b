import HatP.Lib.FieldReader
import HatP.Wal.Codec

/-!
# The frames of the manifest

A frame holds the magic, a tag, the fields of a version edit and a checksum.
The decoder reads the fields before it looks at the checksum, and a field that
the buffer is too short for is an error, not a torn write.  So a manifest that
was cut inside the fields of its last frame cannot be opened.
-/

namespace HatP

open FramedLog LittleEndian

namespace Manifest

variable {bytes : Bytes} {n r : ℕ}

/-! ## Encoding -/

def magic : Bytes := [77, 65, 78, 49]

def frameOverhead : ℕ := 9

def opTag : VersionEdit → UInt8
  | .addFile .. => 1
  | .deleteFile .. => 2
  | .nextFileId _ => 3
  | .droppedPrefix _ => 4
  | .undroppedPrefix _ => 5

/-- `write_len_prefixed_raw`: the bytes behind their length. -/
def writeLenPrefixed (bytes : Bytes) : Except EngineError Bytes :=
  if bytes.length > Wal.maxU32 then .error (.outOfRange "manifest field > u32::MAX")
  else .ok (encode 4 bytes.length ++ bytes)

def encodePayload : VersionEdit → Except EngineError Bytes
  | .addFile fileId level info => do
    let minKey ← writeLenPrefixed info.minKey
    let maxKey ← writeLenPrefixed info.maxKey
    return encode 8 fileId ++ (encode 4 level ++ (minKey ++ (maxKey ++
      (encode 8 info.bytes ++ encode 8 info.createdAt))))
  | .deleteFile fileId level =>
    .ok (encode 8 fileId ++ encode 4 level)
  | .nextFileId fileId => .ok (encode 8 fileId)
  | .droppedPrefix tablePrefix => writeLenPrefixed tablePrefix
  | .undroppedPrefix tablePrefix => writeLenPrefixed tablePrefix

def frameBody (edit : VersionEdit) (payload : Bytes) : Bytes := magic ++ (opTag edit :: payload)

def encodeFrame (edit : VersionEdit) : Except EngineError Bytes := do
  let payload ← encodePayload edit
  let body := frameBody edit payload
  return body ++ encode 4 (crc32cWithState body 0).toNat

def encodeEdits : List VersionEdit → Except EngineError Bytes
  | [] => .ok []
  | edit :: edits => do
    let frame ← encodeFrame edit
    let rest ← encodeEdits edits
    return frame ++ rest

/-! ## Decoding -/

abbrev Reader := FieldReader UInt8 EngineError

def takeUint (width : ℕ) (message : String) : Reader ℕ := fun buf pos ↦
  if buf.length < pos + width then .error (.corrupt message)
  else .ok (readAt width buf pos, pos + width)

def takeU64 : Reader ℕ := takeUint 8 "manifest: truncated u64"

def takeU32 : Reader ℕ := takeUint 4 "manifest: truncated u32"

def takeBytes (len : ℕ) : Reader Bytes := fun buf pos ↦
  if buf.length < pos + len then .error (.corrupt "manifest: truncated payload")
  else .ok (slice buf pos len, pos + len)

def takeLenPrefixed : Reader Bytes := do
  let len ← takeU32
  takeBytes len

/-- A prefix that is not empty; an empty one would match every key. -/
def takeDropPrefix : Reader Bytes := do
  let tablePrefix ← takeLenPrefixed
  if tablePrefix = [] then
    FieldReader.fail (.corrupt "manifest drop-prefix frame has an empty prefix")
  else return tablePrefix

def takeEdit (op : UInt8) : Reader VersionEdit :=
  if op = 1 then do
    let fileId ← takeU64
    let level ← takeU32
    let minKey ← takeLenPrefixed
    let maxKey ← takeLenPrefixed
    let bytes ← takeU64
    let createdAt ← takeU64
    return .addFile fileId level ⟨minKey, maxKey, bytes, createdAt⟩
  else if op = 2 then do
    let fileId ← takeU64
    let level ← takeU32
    return .deleteFile fileId level
  else if op = 3 then do
    let fileId ← takeU64
    return .nextFileId fileId
  else if op = 4 then do
    let tablePrefix ← takeDropPrefix
    return .droppedPrefix tablePrefix
  else if op = 5 then do
    let tablePrefix ← takeDropPrefix
    return .undroppedPrefix tablePrefix
  else FieldReader.fail (.corruptMessage ("unknown manifest operation tag " ++ Wal.hexByte op))

def decodeFrame (buf : Bytes) (cursor : ℕ) : Except EngineError (Option (VersionEdit × ℕ)) :=
  if buf.length < cursor + frameOverhead then .ok none
  else if slice buf cursor 4 ≠ magic then .ok none
  else
    match takeEdit (buf.getD (cursor + 4) 0) buf (cursor + 5) with
    | .error err => .error err
    | .ok (edit, crcEnd) =>
      if buf.length < crcEnd + 4 then .ok none
      else if readAt 4 buf crcEnd ≠
          (crc32cWithState (slice buf cursor (crcEnd - cursor)) 0).toNat then
        .ok none
      else .ok (some (edit, crcEnd + 4))

def decodeAll (buf : Bytes) : Except EngineError (List VersionEdit) :=
  (FramedLog.decodeAll decodeFrame buf).map Prod.fst

/-- `read_manifest_file`; a missing file is an empty one. -/
def readManifestFile (bytes : Bytes) : Except EngineError (List VersionEdit) :=
  if bytes = [] then .ok []
  else if bytes.take 4 ≠ magic then
    .error (.corruptMessage ("MANIFEST uses an unsupported format: only the binary MAN1 format " ++
      "is accepted (legacy Arrow-IPC manifests are no longer supported)"))
  else decodeAll bytes

/-! ## Edits that a frame can carry -/

def MachineSized : VersionEdit → Prop
  | .addFile fileId level info =>
    fileId < 2 ^ 64 ∧ level < 2 ^ 32 ∧ info.bytes < 2 ^ 64 ∧ info.createdAt < 2 ^ 64
  | .deleteFile fileId level => fileId < 2 ^ 64 ∧ level < 2 ^ 32
  | .nextFileId fileId => fileId < 2 ^ 64
  | .droppedPrefix _ => True
  | .undroppedPrefix _ => True

def Fits : VersionEdit → Prop
  | .addFile _ _ info => info.minKey.length ≤ Wal.maxU32 ∧ info.maxKey.length ≤ Wal.maxU32
  | .deleteFile .. => True
  | .nextFileId _ => True
  | .droppedPrefix tablePrefix => tablePrefix.length ≤ Wal.maxU32
  | .undroppedPrefix tablePrefix => tablePrefix.length ≤ Wal.maxU32

def HasPrefix : VersionEdit → Prop
  | .droppedPrefix tablePrefix => tablePrefix ≠ []
  | .undroppedPrefix tablePrefix => tablePrefix ≠ []
  | _ => True

structure InRange (edit : VersionEdit) : Prop where
  sized : MachineSized edit
  fits : Fits edit
  hasPrefix : HasPrefix edit

def lenPrefixed (bytes : Bytes) : Bytes := encode 4 bytes.length ++ bytes

def payload : VersionEdit → Bytes
  | .addFile fileId level info =>
    encode 8 fileId ++ (encode 4 level ++ (lenPrefixed info.minKey ++
      (lenPrefixed info.maxKey ++
        (encode 8 info.bytes ++ encode 8 info.createdAt))))
  | .deleteFile fileId level => encode 8 fileId ++ encode 4 level
  | .nextFileId fileId => encode 8 fileId
  | .droppedPrefix tablePrefix => lenPrefixed tablePrefix
  | .undroppedPrefix tablePrefix => lenPrefixed tablePrefix

def checksum (edit : VersionEdit) : Bytes :=
  encode 4 (crc32cWithState (frameBody edit (payload edit)) 0).toNat

def frameBytes (edit : VersionEdit) : Bytes := frameBody edit (payload edit) ++ checksum edit

theorem writeLenPrefixed_cases (bytes : Bytes) :
    bytes.length ≤ Wal.maxU32 ∧ writeLenPrefixed bytes = .ok (lenPrefixed bytes) ∨
      ¬bytes.length ≤ Wal.maxU32 ∧
        writeLenPrefixed bytes = .error (.outOfRange "manifest field > u32::MAX") := by
  unfold writeLenPrefixed
  split_ifs with hlong
  · exact .inr ⟨Nat.not_le_of_gt hlong, rfl⟩
  · exact .inl ⟨Nat.le_of_not_gt hlong, rfl⟩

theorem encodePayload_cases (edit : VersionEdit) :
    Fits edit ∧ encodePayload edit = .ok (payload edit) ∨
      ¬Fits edit ∧ ∃ err, encodePayload edit = .error err := by
  cases edit with
  | addFile fileId level info =>
    rcases writeLenPrefixed_cases info.minKey with ⟨hmin, hminOk⟩ | ⟨hmin, hminErr⟩
    · rcases writeLenPrefixed_cases info.maxKey with ⟨hmax, hmaxOk⟩ | ⟨hmax, hmaxErr⟩
      · refine .inl ⟨⟨hmin, hmax⟩, ?_⟩
        rw [encodePayload, hminOk, hmaxOk]
        rfl
      · refine .inr ⟨fun h ↦ hmax h.2, .outOfRange "manifest field > u32::MAX", ?_⟩
        rw [encodePayload, hminOk, hmaxErr]
        rfl
    · refine .inr ⟨fun h ↦ hmin h.1, .outOfRange "manifest field > u32::MAX", ?_⟩
      rw [encodePayload, hminErr]
      rfl
  | deleteFile fileId level | nextFileId fileId => exact .inl ⟨trivial, rfl⟩
  | droppedPrefix tablePrefix | undroppedPrefix tablePrefix =>
    exact (writeLenPrefixed_cases tablePrefix).imp_right fun h ↦ ⟨h.1, _, h.2⟩

theorem encodeFrame_eq_ok_iff (edit : VersionEdit) (frame : Bytes) :
    encodeFrame edit = .ok frame ↔ Fits edit ∧ frame = frameBytes edit := by
  rcases encodePayload_cases edit with ⟨hfits, hok⟩ | ⟨hfits, err, herr⟩
  · have hframe : encodeFrame edit = .ok (frameBytes edit) := by
      rw [encodeFrame, hok]
      rfl
    simp [hframe, hfits, eq_comm]
  · simp [encodeFrame, herr, bind, Except.bind, hfits]

theorem encodeEdits_eq_ok_iff {edits : List VersionEdit} :
    encodeEdits edits = .ok bytes ↔
      (∀ edit ∈ edits, Fits edit) ∧ bytes = edits.flatMap frameBytes :=
  encodeAll_eq_ok_iff encodeEdits rfl (fun _ _ ↦ rfl) encodeFrame_eq_ok_iff

/-! ## Reading the fields -/

theorem reads_takeUint {width : ℕ} (message : String) (h : n < 256 ^ width) :
    (takeUint width message).Reads (encode width n) n where
  complete pre post := by
    have hlen : ¬(pre ++ (encode width n ++ post)).length < pre.length + width := by
      simp only [List.length_append, length_encode]
      omega
    rw [takeUint, if_neg hlen, readAt_eq rfl rfl h, length_encode]
  torn pre k hk := by
    rw [length_encode] at hk
    refine ⟨.corrupt message, ?_⟩
    rw [takeUint, if_pos]
    rw [List.length_append, List.length_take, length_encode]
    omega

theorem reads_takeBytes (bytes : Bytes) : (takeBytes bytes.length).Reads bytes bytes where
  complete pre post := by
    have hlen : ¬(pre ++ (bytes ++ post)).length < pre.length + bytes.length := by
      simp only [List.length_append]
      omega
    rw [takeBytes, if_neg hlen, slice_eq rfl rfl rfl]
  torn pre k hk := by
    refine ⟨.corrupt "manifest: truncated payload", ?_⟩
    rw [takeBytes, if_pos]
    rw [List.length_append, List.length_take]
    omega

theorem reads_takeLenPrefixed (h : bytes.length ≤ Wal.maxU32) :
    takeLenPrefixed.Reads (lenPrefixed bytes) bytes :=
  (reads_takeUint _ (Nat.lt_succ_of_le h)).bind (reads_takeBytes bytes)

theorem reads_takeEdit {edit : VersionEdit} (h : InRange edit) :
    (takeEdit (opTag edit)).Reads (payload edit) edit := by
  obtain ⟨hsized, hfits, hne⟩ := h
  cases edit with
  | addFile fileId level info =>
    obtain ⟨hid, hlevel, hbytes, hcreated⟩ := hsized
    exact (reads_takeUint _ hid).bind ((reads_takeUint _ hlevel).bind
      ((reads_takeLenPrefixed hfits.1).bind ((reads_takeLenPrefixed hfits.2).bind
        ((reads_takeUint _ hbytes).bind ((reads_takeUint _ hcreated).bind_pure rfl)))))
  | deleteFile fileId level =>
    exact (reads_takeUint _ hsized.1).bind ((reads_takeUint _ hsized.2).bind_pure rfl)
  | nextFileId fileId => exact (reads_takeUint _ hsized).bind_pure rfl
  | droppedPrefix tablePrefix | undroppedPrefix tablePrefix =>
    exact ((reads_takeLenPrefixed hfits).bind_pure (if_neg hne)).bind_pure rfl

/-! ## Whole frames -/

section Frame

variable {edit : VersionEdit} (pre : Bytes)

@[simp] theorem length_checksum (edit : VersionEdit) : (checksum edit).length = 4 :=
  length_encode 4 _

theorem length_frameBytes (edit : VersionEdit) :
    (frameBytes edit).length = 5 + (payload edit).length + 4 := by
  simp [frameBytes, frameBody, magic]
  omega

theorem frameBytes_eq (edit : VersionEdit) :
    frameBytes edit = (magic ++ [opTag edit]) ++ (payload edit ++ checksum edit) := by
  simp [frameBytes, frameBody]

theorem decodeFrame_header (edit : VersionEdit) {rest : Bytes} (hrest : 4 ≤ rest.length) :
    decodeFrame (pre ++ ((magic ++ [opTag edit]) ++ rest)) pre.length =
      let buf := pre ++ ((magic ++ [opTag edit]) ++ rest)
      match takeEdit (opTag edit) buf (pre.length + 5) with
      | .error err => .error err
      | .ok (edit, crcEnd) =>
        if buf.length < crcEnd + 4 then .ok none
        else if readAt 4 buf crcEnd ≠ (crc32cWithState
            (slice buf pre.length (crcEnd - pre.length)) 0).toNat then
          .ok none
        else .ok (some (edit, crcEnd + 4)) := by
  have hlen : ¬(pre ++ ((magic ++ [opTag edit]) ++ rest)).length < pre.length + frameOverhead := by
    simp only [List.length_append, magic, frameOverhead, List.length_cons, List.length_nil]
    omega
  have hmagic : slice (pre ++ ((magic ++ [opTag edit]) ++ rest)) pre.length 4 = magic := by
    rw [List.append_assoc]
    exact slice_eq rfl rfl rfl
  have hop : (pre ++ ((magic ++ [opTag edit]) ++ rest)).getD (pre.length + 4) 0 = opTag edit := by
    have hdata : pre ++ ((magic ++ [opTag edit]) ++ rest) =
        (pre ++ magic) ++ (opTag edit :: rest) := by
      simp
    have hpos : pre.length + 4 = (pre ++ magic).length := by
      rw [List.length_append]
      rfl
    rw [hdata, hpos, List.getD_eq_getElem?_getD, List.getElem?_append_right (Nat.le_refl _)]
    simp
  rw [decodeFrame, if_neg hlen, hmagic, if_neg (not_not.mpr rfl), hop]

theorem length_pre_header (edit : VersionEdit) :
    (pre ++ (magic ++ [opTag edit])).length = pre.length + 5 := by
  rw [List.length_append]
  rfl

theorem decodeFrame_frameBytes (h : InRange edit) (post : Bytes) :
    decodeFrame (pre ++ (frameBytes edit ++ post)) pre.length =
      .ok (some (edit, pre.length + (frameBytes edit).length)) := by
  have hbuf : pre ++ (frameBytes edit ++ post) =
      pre ++ ((magic ++ [opTag edit]) ++ (payload edit ++ (checksum edit ++ post))) := by
    rw [frameBytes_eq]
    simp
  have hfields := (reads_takeEdit h).complete (pre ++ (magic ++ [opTag edit]))
    (checksum edit ++ post)
  rw [length_pre_header, List.append_assoc] at hfields
  have hbody : pre ++ (frameBytes edit ++ post) =
      pre ++ (frameBody edit (payload edit) ++ (checksum edit ++ post)) := by
    rw [frameBytes, List.append_assoc]
  have hsize : (frameBody edit (payload edit)).length = 5 + (payload edit).length := by
    simp [frameBody, magic]
    omega
  have hsum : slice (pre ++ (frameBytes edit ++ post)) pre.length
      (pre.length + 5 + (payload edit).length - pre.length) = frameBody edit (payload edit) :=
    slice_eq hbody rfl (by omega)
  have hcrc : readAt 4 (pre ++ (frameBytes edit ++ post))
      (pre.length + 5 + (payload edit).length) =
        (crc32cWithState (frameBody edit (payload edit)) 0).toNat :=
    readAt_eq (hbody.trans (List.append_assoc _ _ _).symm)
      (by rw [List.length_append, hsize, Nat.add_assoc]) (UInt32.toNat_lt _)
  have hlen : ¬(pre ++ (frameBytes edit ++ post)).length <
      pre.length + 5 + (payload edit).length + 4 := by
    rw [List.length_append, List.length_append, length_frameBytes]
    omega
  rw [hbuf, decodeFrame_header pre edit (by simp; omega)]
  dsimp only
  rw [hfields]
  dsimp only
  rw [← hbuf, if_neg hlen, hsum, hcrc, if_neg (not_not.mpr rfl), length_frameBytes]
  simp only [Nat.add_assoc]

theorem decodes (h : InRange edit) : Decodes decodeFrame frameBytes edit where
  nonempty := by
    intro hnil
    have hlen := length_frameBytes edit
    rw [hnil, List.length_nil] at hlen
    omega
  complete pre post := decodeFrame_frameBytes pre h post

/-- The cut falls behind the first nine bytes of a frame and inside its
fields. -/
def CutsFields (edit : VersionEdit) (r : ℕ) : Prop :=
  frameOverhead ≤ r ∧ r < 5 + (payload edit).length

instance (edit : VersionEdit) (r : ℕ) : Decidable (CutsFields edit r) :=
  inferInstanceAs (Decidable (_ ∧ _))

theorem take_frameBytes (edit : VersionEdit) (hr : 5 ≤ r) :
    (frameBytes edit).take r =
      (magic ++ [opTag edit]) ++ (payload edit ++ checksum edit).take (r - 5) := by
  rw [frameBytes_eq, List.take_append, List.take_of_length_le]
  · rfl
  · exact hr

theorem decodeFrame_take_error (h : InRange edit) (hr : CutsFields edit r) :
    ∃ err, decodeFrame (pre ++ (frameBytes edit).take r) pre.length = .error err := by
  obtain ⟨hlow, hhigh⟩ := hr
  unfold frameOverhead at hlow
  obtain ⟨err, herr⟩ := (reads_takeEdit h).torn (pre ++ (magic ++ [opTag edit])) (r - 5) (by omega)
  rw [length_pre_header, List.append_assoc] at herr
  have hfields : (payload edit ++ checksum edit).take (r - 5) = (payload edit).take (r - 5) :=
    List.take_append_of_le_length (by omega)
  refine ⟨err, ?_⟩
  rw [take_frameBytes edit (by omega), hfields,
    decodeFrame_header pre edit (by rw [List.length_take]; omega)]
  dsimp only
  rw [herr]

/-- A frame that is cut anywhere else is taken for a torn write. -/
theorem decodeFrame_take_none (h : InRange edit) (hr : r < (frameBytes edit).length)
    (hcut : ¬CutsFields edit r) :
    decodeFrame (pre ++ (frameBytes edit).take r) pre.length = .ok none := by
  rw [length_frameBytes] at hr
  by_cases hshort : r < frameOverhead
  · rw [decodeFrame, if_pos]
    rw [List.length_append, List.length_take]
    omega
  have hlow := Nat.le_of_not_lt hshort
  have hhigh : 5 + (payload edit).length ≤ r := Nat.le_of_not_lt fun hlt ↦ hcut ⟨hlow, hlt⟩
  unfold frameOverhead at hlow
  have hfields := (reads_takeEdit h).complete (pre ++ (magic ++ [opTag edit]))
    ((checksum edit).take (r - 5 - (payload edit).length))
  rw [length_pre_header, List.append_assoc] at hfields
  have htake : (payload edit ++ checksum edit).take (r - 5) =
      payload edit ++ (checksum edit).take (r - 5 - (payload edit).length) := by
    rw [List.take_append, List.take_of_length_le (by omega)]
  have hrest : (payload edit ++ (checksum edit).take (r - 5 - (payload edit).length)).length =
      r - 5 := by
    rw [List.length_append, List.length_take, length_checksum]
    omega
  rw [take_frameBytes edit (by omega), htake, decodeFrame_header pre edit (by omega)]
  dsimp only
  rw [hfields]
  dsimp only
  rw [if_pos]
  rw [List.length_append, List.length_append, hrest]
  simp only [magic, List.length_append, List.length_cons, List.length_nil]
  omega

end Frame

/-! ## Whole files -/

section File

variable {edits : List VersionEdit} {edit : VersionEdit}

theorem take_four_frameBytes (edit : VersionEdit) (rest : Bytes) :
    (frameBytes edit ++ rest).take 4 = magic := by
  simp [frameBytes, frameBody, magic]

theorem readManifestFile_of_magic (h : bytes.take 4 = magic) :
    readManifestFile bytes = decodeAll bytes := by
  have hne : bytes ≠ [] := by
    intro hnil
    rw [hnil] at h
    cases h
  rw [readManifestFile, if_neg hne, if_neg (not_not.mpr h)]

theorem take_four_append (h : 4 ≤ r ∨ edits ≠ []) :
    (edits.flatMap frameBytes ++ (frameBytes edit).take r).take 4 = magic := by
  cases edits with
  | nil =>
    have hr : 4 ≤ r := h.resolve_right (not_not.mpr rfl)
    have hmagic := take_four_frameBytes edit []
    rw [List.append_nil] at hmagic
    rw [List.flatMap_nil, List.nil_append, List.take_take, Nat.min_eq_left hr, hmagic]
  | cons first rest =>
    rw [List.flatMap_cons, List.append_assoc]
    exact take_four_frameBytes first _

section

variable (hedits : ∀ e ∈ edits, InRange e)

include hedits

theorem readManifestFile_flatMap : readManifestFile (edits.flatMap frameBytes) = .ok edits := by
  cases edits with
  | nil => rfl
  | cons first rest =>
    have hall := decodeAll_of_torn (fun e he ↦ decodes (hedits e he)) (.inl rfl)
    rw [List.append_nil] at hall
    rw [readManifestFile_of_magic, decodeAll, hall]
    · rfl
    · rw [List.flatMap_cons]
      exact take_four_frameBytes first _

theorem readManifestFile_torn (hedit : InRange edit)
    (hr : r < (frameBytes edit).length) (hstart : 4 ≤ r ∨ edits ≠ []) (hcut : ¬CutsFields edit r) :
    readManifestFile (edits.flatMap frameBytes ++ (frameBytes edit).take r) = .ok edits := by
  have hall := decodeAll_of_torn (fun e he ↦ decodes (hedits e he))
    (.inr (decodeFrame_take_none (edits.flatMap frameBytes) hedit hr hcut))
  rw [readManifestFile_of_magic (take_four_append hstart), decodeAll, hall]
  rfl

theorem readManifestFile_cut (hedit : InRange edit) (hcut : CutsFields edit r) :
    ∃ err, readManifestFile (edits.flatMap frameBytes ++ (frameBytes edit).take r) =
      .error err := by
  obtain ⟨err, herr⟩ := decodeFrame_take_error (edits.flatMap frameBytes) hedit hcut
  have hlong : 4 ≤ r := le_trans (by decide) hcut.1
  have htail : (frameBytes edit).take r ≠ [] := by
    intro hnil
    have hlen := congrArg List.length hnil
    rw [List.length_take, length_frameBytes, List.length_nil] at hlen
    omega
  have hall := decodeAll_of_error (fun e he ↦ decodes (hedits e he)) htail herr
  refine ⟨err, ?_⟩
  rw [readManifestFile_of_magic (take_four_append (.inl hlong)), decodeAll, hall]
  rfl

end

theorem readManifestFile_short (edit : VersionEdit) (hpos : 0 < r) (hr : r < 4) :
    ∃ err, readManifestFile ((frameBytes edit).take r) = .error err := by
  have hlen : ((frameBytes edit).take r).length = r := by
    rw [List.length_take, length_frameBytes]
    omega
  have hne : (frameBytes edit).take r ≠ [] := by
    intro hnil
    rw [hnil, List.length_nil] at hlen
    omega
  have hmagic : ((frameBytes edit).take r).take 4 ≠ magic := by
    intro h
    have hfour := congrArg List.length h
    rw [List.length_take, hlen] at hfour
    simp only [magic, List.length_cons, List.length_nil] at hfour
    omega
  rw [readManifestFile, if_neg hne, if_pos hmagic]
  exact ⟨_, rfl⟩

/-- The cut leaves no part of a frame, or a part that the decoder takes for a
torn write. -/
def CleanCut (edits : List VersionEdit) (n : ℕ) : Prop :=
  match torn frameBytes n edits with
  | none => True
  | some (edit, r) =>
    (4 ≤ r ∨ complete frameBytes n edits ≠ []) ∧ ¬CutsFields edit r

instance (edits : List VersionEdit) (n : ℕ) : Decidable (CleanCut edits n) := by
  unfold CleanCut
  split
  · exact isTrue trivial
  · infer_instance

section

variable (hedits : ∀ e ∈ edits, InRange e)

include hedits

theorem readManifestFile_take_cases (n : ℕ) :
    CleanCut edits n ∧ readManifestFile ((edits.flatMap frameBytes).take n) =
        .ok (complete frameBytes n edits) ∨
      ¬CleanCut edits n ∧
        ∃ err, readManifestFile ((edits.flatMap frameBytes).take n) = .error err := by
  have hcomplete : ∀ e ∈ complete frameBytes n edits, InRange e :=
    fun e he ↦ hedits e ((prefix_complete n edits).subset he)
  rw [take_flatMap, leftover, CleanCut]
  cases htorn : torn frameBytes n edits with
  | none =>
    rw [List.append_nil]
    exact .inl ⟨trivial, readManifestFile_flatMap hcomplete⟩
  | some cut =>
    obtain ⟨edit, r⟩ := cut
    obtain ⟨hmem, hpos, hr⟩ := torn_eq_some htorn
    by_cases hcut : CutsFields edit r
    · exact .inr ⟨fun h ↦ h.2 hcut, readManifestFile_cut hcomplete (hedits edit hmem) hcut⟩
    · by_cases hstart : 4 ≤ r ∨ complete frameBytes n edits ≠ []
      · exact .inl ⟨⟨hstart, hcut⟩,
          readManifestFile_torn hcomplete (hedits edit hmem) hr hstart hcut⟩
      · refine .inr ⟨fun h ↦ hstart h.1, ?_⟩
        obtain ⟨hshort, hnone⟩ := not_or.mp hstart
        rw [not_not.mp hnone, List.flatMap_nil, List.nil_append]
        exact readManifestFile_short edit hpos (Nat.lt_of_not_le hshort)

theorem readManifestFile_take (n : ℕ) :
    readManifestFile ((edits.flatMap frameBytes).take n) =
        .ok (complete frameBytes n edits) ↔ CleanCut edits n := by
  rcases readManifestFile_take_cases hedits n with ⟨hclean, hread⟩ | ⟨hclean, err, hread⟩
  · exact iff_of_true hread hclean
  · rw [hread]
    exact iff_of_false nofun hclean

/-- A cut manifest that can be read at all is read as its complete frames. -/
theorem complete_of_readManifestFile_take {found : List VersionEdit}
    (hread : readManifestFile ((edits.flatMap frameBytes).take n) = .ok found) :
    found = complete frameBytes n edits := by
  rcases readManifestFile_take_cases hedits n with ⟨-, hok⟩ | ⟨-, err, herr⟩
  · exact Except.ok.inj (hread.symm.trans hok)
  · cases hread.symm.trans herr

end

end File

/-- Reading a manifest that is cut anywhere returns exactly the complete edits
when the cut is clean, and only then. -/
theorem readManifestFile_take_iff (edits : List VersionEdit) (bytes : Bytes)
    (hencode : encodeEdits edits = .ok bytes) (hsized : ∀ e ∈ edits, MachineSized e)
    (hnonempty : ∀ e ∈ edits, HasPrefix e) (n : ℕ) :
    readManifestFile (bytes.take n) = .ok (complete frameBytes n edits) ↔ CleanCut edits n := by
  obtain ⟨hfits, rfl⟩ := encodeEdits_eq_ok_iff.mp hencode
  exact readManifestFile_take (fun e he ↦ ⟨hsized e he, hfits e he, hnonempty e he⟩) n

def flushAndDrop : List VersionEdit :=
  [.addFile 3 0 ⟨[97], [122], 10, 100⟩, .nextFileId 4, .droppedPrefix [116, 0]]

/-- The cut falls into the checksum of the second frame. -/
theorem readManifestFile_take_iff_flushAndDrop :
    ∃ bytes, encodeEdits flushAndDrop = .ok bytes ∧
      (complete frameBytes 62 flushAndDrop).length = 1 ∧
      readManifestFile (bytes.take 62) = .ok (complete frameBytes 62 flushAndDrop) := by
  have hall : ∀ e : VersionEdit, e ∈ flushAndDrop → MachineSized e ∧ HasPrefix e := by
    intro e he
    simp only [flushAndDrop, List.mem_cons, List.not_mem_nil, or_false] at he
    rcases he with rfl | rfl | rfl
    · exact ⟨⟨by decide, by decide, by decide, by decide⟩, trivial⟩
    · exact ⟨(by decide : 4 < 2 ^ 64), trivial⟩
    · exact ⟨trivial, List.cons_ne_nil _ _⟩
  refine ⟨_, rfl, by decide, ?_⟩
  exact (readManifestFile_take_iff flushAndDrop _ rfl (fun e he ↦ (hall e he).1)
    (fun e he ↦ (hall e he).2) 62).mpr (by decide)

/-- Cuts inside the only field of a frame and inside the magic of the file. -/
theorem readManifestFile_torn_error :
    ∃ bytes, encodeEdits [.nextFileId 1] = .ok bytes ∧
      complete frameBytes 10 [.nextFileId 1] = [] ∧
      readManifestFile (bytes.take 10) = .error (.corrupt "manifest: truncated u64") ∧
      complete frameBytes 2 [.nextFileId 1] = [] ∧
      ∃ err, readManifestFile (bytes.take 2) = .error err :=
  ⟨_, rfl, rfl, rfl, rfl, _, rfl⟩

end Manifest

end HatP
