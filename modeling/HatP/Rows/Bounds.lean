import HatP.Rows.Codec

/-!
# How far row decoding reads

Markers and length-prefixed values are checked against the payload, fixed-width
values are not.  A read that leaves the payload goes unnoticed in the last column of
the schema; in any other column the marker behind it is missing.
-/

namespace HatP

variable {bytes : Bytes} {c : Cursor} {dataType : DataType} {s : Slice UInt8} {p : ℕ}
  {types : List DataType}

open LittleEndian RawReader

/-! ## Fields of a payload -/

def DataType.width : DataType → Option ℕ
  | .int8 | .uint8 | .boolean => some 1
  | .int16 | .uint16 => some 2
  | .int32 | .uint32 | .float32 | .date32 | .time32Second | .time32Millisecond
  | .intervalYearMonth => some 4
  | .int64 | .uint64 | .float64 | .date64 | .timestamp _ _ | .time64Microsecond
  | .time64Nanosecond | .intervalDayTime | .duration _ => some 8
  | .intervalMonthDayNano => some 16
  | .utf8 | .largeUtf8 | .binary | .largeBinary | .null | .other _ => none

def DataType.IsValue (dataType : DataType) (value : Bytes) : Prop :=
  match dataType.width, dataType with
  | some width, _ => value.length = width
  | none, .binary | none, .largeBinary => ∃ bytes, putLenPrefixed bytes = .ok value
  | none, .utf8 | none, .largeUtf8 => ∃ s, validUtf8 s = true ∧ putLenPrefixed s = .ok value
  | none, _ => False

theorem DataType.isValue_iff_length {width : ℕ} {value : Bytes}
    (h : dataType.width = some width) : dataType.IsValue value ↔ value.length = width := by
  unfold IsValue
  rw [h]

def DataType.IsField (dataType : DataType) (field : Bytes) : Prop :=
  ∃ marker value, field = marker :: value ∧
    if marker = 0 then value = [] else dataType.IsValue value

/-- The payload has a field for each column but the last, and of the last column it has
the marker of a fixed-width value and too few bytes behind it. -/
def Overruns : List DataType → Bytes → Prop
  | [], _ => False
  | [last], bytes => ∃ marker value, bytes = marker :: value ∧ marker ≠ 0 ∧
      ∃ width, last.width = some width ∧ value.length < width
  | dataType :: next :: types, bytes => ∃ field rest, bytes = field ++ rest ∧
      dataType.IsField field ∧ Overruns (next :: types) rest

/-! ## One value -/

theorem advances_readI32 : Advances readI32 4 := ((advances_unchecked 4).map _).map _

theorem advances_readI64 : Advances readI64 8 := ((advances_unchecked 8).map _).map _

theorem advances_valueBytesToScalar {width : ℕ}
    (h : dataType.width = some width) : Advances (valueBytesToScalar dataType) width := by
  cases dataType with
  | int8 | uint8 | boolean => cases h; exact ((advances_unchecked 1).map _).map _
  | int16 | uint16 => cases h; exact ((advances_unchecked 2).map _).map _
  | uint32 | float32 => cases h; exact ((advances_unchecked 4).map _).map _
  | uint64 | float64 => cases h; exact ((advances_unchecked 8).map _).map _
  | int32 | date32 | time32Second | time32Millisecond | intervalYearMonth =>
    cases h
    exact advances_readI32.map _
  | int64 | date64 | timestamp | time64Microsecond | time64Nanosecond | duration =>
    cases h
    exact advances_readI64.map _
  | intervalDayTime =>
    cases h
    exact advances_readI32.bind fun _ ↦ advances_readI32.map _
  | intervalMonthDayNano =>
    cases h
    exact advances_readI32.bind fun _ ↦ advances_readI32.bind fun _ ↦ advances_readI64.map _
  | utf8 | largeUtf8 | binary | largeBinary | null | other => cases h

theorem takeLenPrefixed_ok (h : takeLenPrefixed s (.after p) = .ok (bytes, c)) :
    ∃ value rest, s.data.drop p = value ++ rest ∧ putLenPrefixed bytes = .ok value ∧
      c = .after (p + value.length) := by
  obtain ⟨lenBytes, next, hlen, hpayload⟩ := bind_eq_ok h
  obtain ⟨hfour, hfirst, rfl⟩ := take_eq_ok hlen
  obtain ⟨hcount, hsecond, rfl⟩ := take_eq_ok hpayload
  refine ⟨lenBytes ++ bytes, s.data.drop (p + 4 + decode lenBytes), ?_, ?_, ?_⟩
  · rw [hfirst, hsecond, List.append_assoc]
  · have hsmall : decode lenBytes < 2 ^ 32 := by
      have hlt := decode_lt lenBytes
      rwa [hfour] at hlt
    have hprefix := encode_decode lenBytes
    rw [hfour] at hprefix
    rw [putLenPrefixed, hcount, if_pos hsmall, hprefix]
  · rw [List.length_append, hfour, hcount, Nat.add_assoc]

theorem takeString_ok (h : takeString s (.after p) = .ok (bytes, c)) :
    validUtf8 bytes = true ∧ takeLenPrefixed s (.after p) = .ok (bytes, c) := by
  obtain ⟨taken, next, htake, hcheck⟩ := bind_eq_ok h
  split at hcheck
  next hvalid =>
    cases hcheck
    exact ⟨hvalid, htake⟩
  next => cases hcheck

theorem valueBytesToScalar_ok {x : ScalarValue}
    (h : valueBytesToScalar dataType s (.after p) = .ok (x, c)) :
    (∃ value rest, s.data.drop p = value ++ rest ∧ dataType.IsValue value ∧
        c = .after (p + value.length)) ∨
      ∃ width, dataType.width = some width ∧ (s.data.drop p).length < width ∧
        c = .after (p + width) := by
  cases hwidth : dataType.width with
  | some width =>
    obtain ⟨y, hy⟩ := advances_valueBytesToScalar hwidth s p
    cases hy.symm.trans h
    by_cases hshort : (s.data.drop p).length < width
    · exact .inr ⟨width, rfl, hshort, rfl⟩
    · have hlength := List.length_take_of_le (Nat.le_of_not_lt hshort)
      refine .inl ⟨_, _, (List.take_append_drop width _).symm, ?_, ?_⟩
      · exact (DataType.isValue_iff_length hwidth).mpr hlength
      · rw [hlength]
  | none =>
    left
    cases dataType with
    | binary | largeBinary =>
      obtain ⟨bytes, next, htake, hlast⟩ := bind_eq_ok h
      cases hlast
      obtain ⟨value, rest, hdata, hvalue, rfl⟩ := takeLenPrefixed_ok htake
      exact ⟨value, rest, hdata, ⟨bytes, hvalue⟩, rfl⟩
    | utf8 | largeUtf8 =>
      obtain ⟨bytes, next, htake, hlast⟩ := bind_eq_ok h
      cases hlast
      obtain ⟨hvalid, htake⟩ := takeString_ok htake
      obtain ⟨value, rest, hdata, hvalue, rfl⟩ := takeLenPrefixed_ok htake
      exact ⟨value, rest, hdata, ⟨bytes, hvalid, hvalue⟩, rfl⟩
    | null | other => cases h
    | _ => cases hwidth

theorem accepts_valueBytesToScalar {value : Bytes} (h : dataType.IsValue value) {rest : Bytes}
    (hdata : s.data.drop p = value ++ rest) (hp : p ≤ s.data.length) :
    ∃ x, valueBytesToScalar dataType s (.after p) = .ok (x, .after (p + value.length)) := by
  cases hwidth : dataType.width with
  | some width =>
    rw [(DataType.isValue_iff_length hwidth).mp h]
    exact advances_valueBytesToScalar hwidth s p
  | none =>
    cases dataType with
    | binary | largeBinary =>
      obtain ⟨bytes, hbytes⟩ := h
      exact ⟨_, ((reads_takeLenPrefixed hbytes).map _).apply hdata hp⟩
    | utf8 | largeUtf8 =>
      obtain ⟨bytes, hvalid, hbytes⟩ := h
      exact ⟨_, ((reads_takeString hvalid hbytes).map _).apply hdata hp⟩
    | null | other => exact h.elim
    | _ => cases hwidth

/-! ## One column -/

theorem decodeTyped_ok {x : ScalarValue} (h : decodeTyped dataType s (.after p) = .ok (x, c)) :
    (∃ field rest, s.data.drop p = field ++ rest ∧ dataType.IsField field ∧
        c = .after (p + field.length)) ∨
      ∃ marker value width, s.data.drop p = marker :: value ∧ marker ≠ 0 ∧
        dataType.width = some width ∧ value.length < width ∧ c = .after (p + 1 + width) := by
  obtain ⟨marker, next, hmarker, hvalue⟩ := bind_eq_ok h
  obtain ⟨rest, hdata, rfl⟩ := element_eq_ok hmarker
  have hrest : s.data.drop (p + 1) = rest := by
    rw [← List.drop_drop, hdata]
    rfl
  rw [decodeMarked] at hvalue
  split at hvalue
  next hzero =>
    cases hvalue
    exact .inl ⟨[marker], rest, hdata, ⟨marker, [], rfl, by rw [if_pos hzero]⟩, rfl⟩
  next hpresent =>
    rcases valueBytesToScalar_ok hvalue with ⟨value, after, hafter, hisValue, rfl⟩ | hleaves
    · refine .inl ⟨marker :: value, after, ?_, ⟨marker, value, rfl, ?_⟩, ?_⟩
      · rw [hdata, ← hrest, hafter, List.cons_append]
      · rwa [if_neg hpresent]
      · rw [List.length_cons, Nat.add_assoc, Nat.add_comm 1]
    · obtain ⟨width, hwidth, hshort, rfl⟩ := hleaves
      rw [hrest] at hshort
      exact .inr ⟨marker, rest, width, hdata, hpresent, hwidth, hshort, rfl⟩

theorem accepts_decodeTyped {field : Bytes} (h : dataType.IsField field)
    {rest : Bytes} (hdata : s.data.drop p = field ++ rest) (hp : p ≤ s.data.length) :
    ∃ x, decodeTyped dataType s (.after p) = .ok (x, .after (p + field.length)) := by
  obtain ⟨marker, value, rfl, hvalue⟩ := h
  have hmarker : nullMarker s (.after p) = .ok (marker, .after (p + 1)) :=
    (reads_element marker _).apply hdata hp
  have hrest : s.data.drop (p + 1) = value ++ rest := by
    rw [← List.drop_drop, hdata]
    rfl
  rw [decodeTyped, bind_apply_ok hmarker, decodeMarked]
  split
  next hzero =>
    rw [if_pos hzero] at hvalue
    subst hvalue
    exact ⟨_, rfl⟩
  next hpresent =>
    rw [if_neg hpresent] at hvalue
    have hp' : p + 1 ≤ s.data.length := by
      have hlength := congrArg List.length hdata
      rw [List.length_drop] at hlength
      simp only [List.cons_append, List.length_cons] at hlength
      omega
    obtain ⟨x, hx⟩ := accepts_valueBytesToScalar hvalue hrest hp'
    refine ⟨x, ?_⟩
    rw [hx, List.length_cons, Nat.add_assoc, Nat.add_comm 1]

/-! ## Rows -/

theorem length_eq_of_drop (h : s.data.drop p = bytes)
    (hp : p ≤ s.data.length) : s.data.length = p + bytes.length := by
  rw [← h, List.length_drop]
  omega

/-- Decoding ends behind the payload in the case of an overrun only. -/
theorem overruns_of_ok {xs : List ScalarValue} (hp : p ≤ s.data.length)
    (h : all decodeTyped types s (.after p) = .ok (xs, c)) :
    ∃ q, c = .after q ∧ (s.data.length < q → Overruns types (s.data.drop p)) := by
  induction types generalizing p xs with
  | nil =>
    cases h
    exact ⟨p, rfl, fun hlt ↦ absurd hlt (Nat.not_lt.mpr hp)⟩
  | cons dataType types ih =>
    obtain ⟨x, next, hx, h⟩ := bind_eq_ok h
    obtain ⟨rest, last, hrest, h⟩ := bind_eq_ok h
    cases h
    rcases decodeTyped_ok hx with ⟨field, tail, hdata, hfield, rfl⟩ | hleaves
    · have hlength := length_eq_of_drop hdata hp
      have htail : s.data.drop (p + field.length) = tail := by
        rw [← List.drop_drop, hdata, List.drop_left]
      obtain ⟨q, rfl, hq⟩ := ih (by rw [hlength, List.length_append]; omega) hrest
      refine ⟨q, rfl, fun hlt ↦ ?_⟩
      have htypes := hq hlt
      cases types with
      | nil => exact htypes.elim
      | cons next types => exact ⟨field, tail, hdata, hfield, htail ▸ htypes⟩
    · obtain ⟨marker, value, width, hdata, hmarker, hwidth, hshort, rfl⟩ := hleaves
      have hlength := length_eq_of_drop hdata hp
      cases types with
      | nil =>
        cases hrest
        exact ⟨_, rfl, fun _ ↦ ⟨marker, value, hdata, hmarker, width, hwidth, hshort⟩⟩
      | cons next types =>
        -- The marker of the next column would stand behind the end.
        obtain ⟨y, mid, hy, -⟩ := bind_eq_ok hrest
        obtain ⟨marker', mid', hmarker', -⟩ := bind_eq_ok hy
        obtain ⟨tail, htail, -⟩ := element_eq_ok hmarker'
        have hpos := congrArg List.length htail
        rw [List.length_drop, List.length_cons] at hpos
        rw [List.length_cons] at hlength
        omega

theorem ok_of_overruns (hp : p ≤ s.data.length) (h : Overruns types (s.data.drop p)) :
    ∃ xs q, all decodeTyped types s (.after p) = .ok (xs, .after q) ∧ s.data.length < q := by
  induction types generalizing p with
  | nil => exact h.elim
  | cons dataType types ih =>
    cases types with
    | nil =>
      obtain ⟨marker, value, hdata, hmarker, width, hwidth, hshort⟩ := h
      have hlength := length_eq_of_drop hdata hp
      have hfirst : nullMarker s (.after p) = .ok (marker, .after (p + 1)) :=
        (reads_element marker _).apply hdata hp
      obtain ⟨x, hx⟩ := advances_valueBytesToScalar hwidth s (p + 1)
      have hcolumn : decodeTyped dataType s (.after p) = .ok (x, .after (p + 1 + width)) := by
        rw [decodeTyped, bind_apply_ok hfirst, decodeMarked, if_neg hmarker, hx]
      refine ⟨[x], p + 1 + width, ?_, ?_⟩
      · rw [all, bind_apply_ok hcolumn]
        rfl
      · rw [List.length_cons] at hlength
        omega
    | cons next types =>
      obtain ⟨field, rest, hdata, hfield, hrest⟩ := h
      have hlength := length_eq_of_drop hdata hp
      obtain ⟨x, hx⟩ := accepts_decodeTyped hfield hdata hp
      have htail : s.data.drop (p + field.length) = rest := by
        rw [← List.drop_drop, hdata, List.drop_left]
      obtain ⟨xs, q, hxs, hq⟩ :=
        ih (by rw [hlength, List.length_append]; omega) (htail.symm ▸ hrest)
      refine ⟨x :: xs, q, ?_, hq⟩
      rw [all, bind_apply_ok hx, bind_apply_ok hxs]
      rfl

/-! ## The decoders -/

inductive RowDecoder
  | values
  | into (out : List ScalarValue)
  | narrow (cols : List ℕ)

def RowDecoder.finalCursor (decoder : RowDecoder) (schema : List ColumnField) (s : Slice UInt8) :
    Except EngineError Cursor :=
  match decoder with
  | .values => ((decodeRowValues schema).run s).map Prod.snd
  | .into out => (decodeRowInto schema s out).1
  | .narrow cols => ((decodeRowNarrow schema cols).run s).map Prod.snd

theorem fst_decodeRowInto_go (schema : List ColumnField) (s : Slice UInt8) (cols : List ℕ)
    (c : Cursor) (out : List ScalarValue) :
    (decodeRowInto.go schema s cols c out).1 =
      (all (decodeColumn schema) cols s c).map Prod.snd := by
  induction cols generalizing c out with
  | nil => rfl
  | cons col cols ih =>
    rw [decodeRowInto.go, all]
    cases hcol : decodeColumn schema col s c with
    | error err => rw [bind_apply_error hcol]; rfl
    | ok result => rw [bind_apply_ok hcol, snd_bind_pure]; exact ih result.2 _

/-- All decoders walk over the same bytes. -/
theorem RowDecoder.finalCursor_eq (decoder : RowDecoder) (schema : List ColumnField)
    (s : Slice UInt8) :
    decoder.finalCursor schema s =
      ((all decodeTyped (schema.map ColumnField.dataType)).run s).map Prod.snd := by
  rw [← decodeRowFull_eq]
  cases decoder with
  | values => rw [finalCursor, decodeRowValues_eq, decodeRowFull_eq]
  | into out => exact fst_decodeRowInto_go schema s _ _ _
  | narrow cols =>
    rw [finalCursor]
    by_cases hfast : cols.length = schema.length ∧ cols.zipIdx.all fun entry ↦ entry.2 = entry.1
    · rw [decodeRowNarrow, if_pos hfast]
    · rw [decodeRowNarrow_eq hfast, run, snd_bind_pure]
      rfl

/-- A decoder that returns has stayed inside the payload, unless the payload ends in the
fixed-width value of the last column. -/
theorem decoders_stay_inside_iff (decoder : RowDecoder) (schema : List ColumnField)
    (bytes : Bytes) :
    (∀ behind cursor, decoder.finalCursor schema ⟨bytes, behind⟩ = .ok cursor →
        cursor.reach ≤ bytes.length ∧ cursor.pos ≤ bytes.length) ↔
      ¬Overruns (schema.map ColumnField.dataType) bytes := by
  constructor
  · intro hinside hoverruns
    obtain ⟨xs, q, hxs, hq⟩ := ok_of_overruns (s := ⟨bytes, 0⟩) (Nat.zero_le _) hoverruns
    have hcursor : decoder.finalCursor schema ⟨bytes, 0⟩ = .ok (.after q) := by
      rw [RowDecoder.finalCursor_eq, run, hxs]
      rfl
    exact Nat.not_lt.mpr (hinside 0 _ hcursor).2 hq
  · intro hoverruns behind cursor hcursor
    rw [RowDecoder.finalCursor_eq] at hcursor
    obtain ⟨result, hrun, rfl⟩ := Fallible.map_eq_ok_iff.mp hcursor
    obtain ⟨q, hq, hleaves⟩ := overruns_of_ok (Nat.zero_le _) hrun
    have hinside : q ≤ bytes.length := Nat.not_lt.mp fun hlt ↦ hoverruns (hleaves hlt)
    rw [hq]
    exact ⟨hinside, hinside⟩

/-- One marker byte is enough for the decoder to read eight bytes behind the end. -/
theorem eight_bytes_behind :
    Overruns [.int64] [1] ∧ ∀ behind,
      (decodeRowValues [⟨"id", .int64⟩]).run ⟨[1], behind⟩ =
        .ok ([.int64 (some (UInt64.ofNat
          (decode ((List.range 8).map behind))).toInt64)], .after 9) := by
  exact ⟨⟨1, [], rfl, by decide, 8, rfl, by decide⟩, fun behind ↦ rfl⟩

end HatP
