import HatP.Bloom
import HatP.Lib.LittleEndian
import HatP.Lib.Run

/-!
# The file of a bloom filter

The bytes of a sidecar are a magic number, the bit count, the probe count and
the words, all little-endian.  Reading checks the magic number and that the
length agrees with the bit count, nothing else.
-/

namespace HatP

open LittleEndian Transition

namespace BloomFilter

variable {filter : BloomFilter}

def magic : Bytes := [66, 70, 48, 49]

def wordBytes (words : List UInt64) : Bytes :=
  words.flatMap fun word ↦ encode 8 word.toNat

def toBytes (filter : BloomFilter) : Bytes :=
  magic ++ (encode 8 filter.numBits.toNat ++ (encode 4 filter.numHashes ++ wordBytes filter.bits))

def fromBytes (bytes : Bytes) : Option BloomFilter :=
  if bytes.length < 16 then none
  else if bytes.take 4 ≠ magic then none
  else
    let numBits := UInt64.ofNat (readAt 8 bytes 4)
    let numHashes := readAt 4 bytes 12
    let words := numBits.toNat / 64
    if bytes.length ≠ 16 + words * 8 then none
    else
      some ⟨numBits, numHashes,
        (List.range words).map fun wordIndex ↦ UInt64.ofNat (readAt 8 bytes (16 + wordIndex * 8))⟩

def isPowerOfTwo (n : UInt64) : Bool :=
  n.toNat == 2 ^ n.toNat.log2

def assertInvariants (filter : BloomFilter) : Bool :=
  if !isPowerOfTwo filter.numBits then false
  else if filter.numHashes == 0 || filter.numHashes > 32 then false
  else if filter.bits.length != filter.numBits.toNat / 64 then false
  else true

/-- What `new` makes and every insertion keeps: the invariants of the source
with at least one word. -/
structure WellFormed (filter : BloomFilter) : Prop where
  numBits_two_pow : ∃ log2Words, filter.numBits.toNat = 2 ^ (log2Words + 6)
  numHashes_pos : 0 < filter.numHashes
  numHashes_le : filter.numHashes ≤ 32
  length_bits : filter.bits.length = filter.numBits.toNat / 64

theorem assertInvariants_iff (filter : BloomFilter) :
    filter.assertInvariants = true ↔ isPowerOfTwo filter.numBits = true ∧
      filter.numHashes ≠ 0 ∧ filter.numHashes ≤ 32 ∧
      filter.bits.length = filter.numBits.toNat / 64 := by
  simp [assertInvariants, and_assoc]

theorem wellFormed_iff (filter : BloomFilter) :
    filter.WellFormed ↔ filter.assertInvariants = true ∧ 64 ≤ filter.numBits := by
  have hle : 64 ≤ filter.numBits ↔ 64 ≤ filter.numBits.toNat := UInt64.le_iff_toNat_le
  rw [hle]
  constructor
  · rintro ⟨⟨log2Words, hbits⟩, hpos, hle, hlen⟩
    have hpow : isPowerOfTwo filter.numBits = true := by
      rw [isPowerOfTwo, hbits, Nat.log2_two_pow, beq_self_eq_true]
    refine ⟨(assertInvariants_iff filter).mpr ⟨hpow, hpos.ne', hle, hlen⟩, ?_⟩
    rw [hbits, Nat.pow_add]
    exact Nat.le_mul_of_pos_left _ (Nat.two_pow_pos _)
  · rintro ⟨hinv, hle⟩
    obtain ⟨hpow, hpos, hhashes, hlen⟩ := (assertInvariants_iff filter).mp hinv
    have hlog : 6 ≤ filter.numBits.toNat.log2 := by
      rw [Nat.le_log2 (by omega)]
      exact hle
    refine ⟨⟨filter.numBits.toNat.log2 - 6, ?_⟩, by omega, hhashes, hlen⟩
    rw [Nat.sub_add_cancel hlog]
    exact beq_iff_eq.mp hpow

theorem wellFormed_new (size : BloomSize) : (new size).WellFormed where
  numBits_two_pow := ⟨_, toNat_numBits_new size⟩
  numHashes_pos := size.numHashes_pos
  numHashes_le := size.numHashes_le
  length_bits := by
    rw [toNat_numBits_new, Nat.pow_add, Nat.mul_div_cancel _ (by decide)]
    exact List.length_replicate

theorem WellFormed.sized (h : filter.WellFormed) : filter.Sized := by
  obtain ⟨log2Words, hbits⟩ := h.numBits_two_pow
  apply sized_of_two_pow hbits
  rw [h.length_bits, hbits, Nat.pow_add]
  exact Nat.mul_div_cancel _ (by decide)

theorem WellFormed.insert (h : filter.WellFormed) (key : Bytes) :
    (filter.insert key).WellFormed := by
  have hbits : (filter.insert key).numBits = filter.numBits := numBits_setProbes key _
  have hhashes : (filter.insert key).numHashes = filter.numHashes := numHashes_setProbes key _
  have hlen : (filter.insert key).bits.length = filter.bits.length := length_setProbes key _
  exact ⟨hbits ▸ h.numBits_two_pow, hhashes ▸ h.numHashes_pos, hhashes ▸ h.numHashes_le,
    by rw [hlen, hbits, h.length_bits]⟩

/-! ## The round trip -/

theorem length_wordBytes (words : List UInt64) : (wordBytes words).length = words.length * 8 := by
  induction words with
  | nil => rfl
  | cons word words ih =>
    rw [wordBytes, List.flatMap_cons, List.length_append, length_encode, List.length_cons,
      Nat.succ_mul, Nat.add_comm]
    exact congrArg (· + 8) ih

theorem length_toBytes (filter : BloomFilter) :
    filter.toBytes.length = 16 + filter.bits.length * 8 := by
  simp only [toBytes, List.length_append, length_encode, length_wordBytes]
  rw [show magic.length = 4 from rfl]
  omega

theorem readAt_wordBytes (before : Bytes) {words : List UInt64} {i : ℕ} {word : UInt64}
    (h : words[i]? = some word) :
    readAt 8 (before ++ wordBytes words) (before.length + i * 8) = word.toNat := by
  obtain ⟨hi, rfl⟩ := List.getElem?_eq_some_iff.mp h
  have hsplit : words = words.take i ++ words[i] :: words.drop (i + 1) := by
    rw [← List.drop_eq_getElem_cons hi, List.take_append_drop]
  have hbytes : before ++ wordBytes words = (before ++ wordBytes (words.take i)) ++
      (encode 8 words[i].toNat ++ wordBytes (words.drop (i + 1))) := by
    conv_lhs => rw [hsplit]
    simp only [wordBytes, List.flatMap_append, List.flatMap_cons, List.append_assoc]
  apply readAt_eq hbytes
  · rw [List.length_append, length_wordBytes, List.length_take_of_le hi.le]
  · exact words[i].toNat_lt

theorem fromBytes_toBytes (h : filter.WellFormed) : fromBytes filter.toBytes = some filter := by
  have hhashes := h.numHashes_le
  have hnumBits : readAt 8 filter.toBytes 4 = filter.numBits.toNat :=
    readAt_eq rfl rfl filter.numBits.toNat_lt
  have hnumHashes : readAt 4 filter.toBytes 12 = filter.numHashes := by
    have hbytes : filter.toBytes = (magic ++ encode 8 filter.numBits.toNat) ++
        (encode 4 filter.numHashes ++ wordBytes filter.bits) := by
      rw [toBytes, List.append_assoc]
    apply readAt_eq hbytes
    · rw [List.length_append, length_encode]
      rfl
    · omega
  have hwords : ((List.range filter.bits.length).map fun i ↦
      UInt64.ofNat (readAt 8 filter.toBytes (16 + i * 8))) = filter.bits := by
    apply List.ext_getElem?
    intro i
    by_cases hi : i < filter.bits.length
    · have hbytes : filter.toBytes =
          (magic ++ (encode 8 filter.numBits.toNat ++ encode 4 filter.numHashes)) ++
            wordBytes filter.bits := by
        simp only [toBytes, List.append_assoc]
      have hread := readAt_wordBytes
        (magic ++ (encode 8 filter.numBits.toNat ++ encode 4 filter.numHashes))
        (List.getElem?_eq_getElem hi)
      rw [← hbytes] at hread
      simp only [List.length_append, length_encode] at hread
      rw [List.getElem?_map, List.getElem?_range hi, List.getElem?_eq_getElem hi, Option.map_some]
      change some (UInt64.ofNat (readAt 8 filter.toBytes (magic.length + (8 + 4) + i * 8))) = _
      rw [hread, UInt64.ofNat_toNat]
    · rw [List.getElem?_eq_none (by simpa using hi), List.getElem?_eq_none (by simpa using hi)]
  have hmagic : filter.toBytes.take 4 = magic := rfl
  rw [fromBytes, if_neg (by rw [length_toBytes]; omega), if_neg (not_not.mpr hmagic)]
  dsimp only
  rw [hnumBits, hnumHashes, UInt64.ofNat_toNat, ← h.length_bits, hwords,
    if_neg (not_not.mpr (length_toBytes filter))]

/-! ## Decoded filters -/

/-- The words a run over the probes looks at, up to the first bit not set. -/
def probedWords (filter : BloomFilter) (key : Bytes) : List ℕ → List ℕ
  | [] => []
  | probe :: probes =>
    let bit := filter.probeBit key probe
    (bit >>> 6).toNat :: if filter.testBit bit then probedWords filter key probes else []

/-- The word indices that `contains` computes. -/
def containsWords (filter : BloomFilter) (key : Bytes) : List ℕ :=
  if filter.bits.isEmpty || filter.numHashes == 0 then []
  else filter.probedWords key (List.range filter.numHashes)

theorem Sized.lt_of_mem_probedWords (h : filter.Sized) {key : Bytes} {probes : List ℕ} {index : ℕ}
    (hindex : index ∈ filter.probedWords key probes) : index < filter.bits.length := by
  induction probes with
  | nil => cases hindex
  | cons probe probes ih =>
    rcases List.mem_cons.mp hindex with rfl | hrest
    · exact h key probe
    · split at hrest
      · exact ih hrest
      · cases hrest

theorem lt_of_mem_containsWords (hinv : filter.assertInvariants = true) {key : Bytes} {index : ℕ}
    (hindex : index ∈ filter.containsWords key) : index < filter.bits.length := by
  rw [containsWords] at hindex
  split at hindex
  · cases hindex
  next hprobed =>
    -- a filter of less than one word is never probed
    have hbits : 64 ≤ filter.numBits := by
      obtain ⟨-, -, -, hlen⟩ := (assertInvariants_iff filter).mp hinv
      rw [UInt64.le_iff_toNat_le]
      change 64 ≤ filter.numBits.toNat
      by_contra hsmall
      rw [Nat.div_eq_of_lt (not_le.mp hsmall)] at hlen
      simp [List.length_eq_zero_iff.mp hlen] at hprobed
    exact ((wellFormed_iff filter).mpr ⟨hinv, hbits⟩).sized.lt_of_mem_probedWords hindex

theorem fields_of_fromBytes {bytes : Bytes} (h : fromBytes bytes = some filter) :
    filter.numBits = UInt64.ofNat (readAt 8 bytes 4) ∧ filter.numHashes = readAt 4 bytes 12 ∧
      filter.bits.length = filter.numBits.toNat / 64 := by
  simp only [fromBytes] at h
  split_ifs at h
  obtain rfl := Option.some.inj h
  exact ⟨rfl, rfl, by simp⟩

/-- Querying a decoded filter stays inside its words, with the invariants of a
built one, exactly when the header names a power of two and a number of probes
in range.  The decoder checks neither. -/
theorem decoded_safe_iff {bytes : Bytes} (h : fromBytes bytes = some filter) :
    ((∀ key, ∀ index ∈ filter.containsWords key, index < filter.bits.length) ∧
        filter.assertInvariants = true) ↔
      isPowerOfTwo (UInt64.ofNat (readAt 8 bytes 4)) = true ∧ readAt 4 bytes 12 ≠ 0 ∧
        readAt 4 bytes 12 ≤ 32 := by
  obtain ⟨hbits, hhashes, hlen⟩ := fields_of_fromBytes h
  have hinv := assertInvariants_iff filter
  rw [hbits, hhashes, ← hbits] at hinv
  constructor
  · rintro ⟨-, hholds⟩
    obtain ⟨hpow, hpos, hle, -⟩ := hinv.mp hholds
    exact ⟨hbits ▸ hpow, hpos, hle⟩
  · rintro ⟨hpow, hpos, hle⟩
    have hholds := hinv.mpr ⟨hbits ▸ hpow, hpos, hle, hlen⟩
    exact ⟨fun key index hindex ↦ lt_of_mem_containsWords hholds hindex, hholds⟩

/-- A file of one word whose header counts 65 bits. -/
def oddSized : Bytes := magic ++ (encode 8 65 ++ (encode 4 1 ++ encode 8 0))

theorem oddSized_out_of_bounds :
    ∃ filter, fromBytes oddSized = some filter ∧ filter.bits.length = 1 ∧
      filter.containsWords [0] = [1] ∧ filter.assertInvariants = false :=
  ⟨⟨65, 1, [0]⟩, by decide +kernel, by decide +kernel, by decide +kernel, by decide +kernel⟩

theorem decoded_safe_iff_oddSized :
    fromBytes oddSized = some ⟨65, 1, [0]⟩ ∧
      ¬((∀ key, ∀ index ∈ (⟨65, 1, [0]⟩ : BloomFilter).containsWords key, index < 1) ∧
        (⟨65, 1, [0]⟩ : BloomFilter).assertInvariants = true) := by
  have hdecoded : fromBytes oddSized = some ⟨65, 1, [0]⟩ := by decide +kernel
  refine ⟨hdecoded, fun hsafe ↦ ?_⟩
  obtain ⟨hpow, -⟩ := (decoded_safe_iff hdecoded).mp hsafe
  exact absurd hpow (by decide +kernel)

/-! ## Insertions and reloads -/

inductive Op where
  | insert (key : Bytes)
  /-- The filter is written to its file and read back. -/
  | reload

def step (filter : BloomFilter) : Op → Option BloomFilter
  | .insert key => some (filter.insert key)
  | .reload => fromBytes filter.toBytes

theorem WellFormed.exists_step (h : filter.WellFormed) (op : Op) :
    ∃ next, filter.step op = some next ∧ next.WellFormed ∧
      (∀ key, op = .insert key → next.Holds key) ∧
      ∀ key, filter.Holds key → next.Holds key := by
  cases op with
  | insert key =>
    refine ⟨_, rfl, h.insert key, ?_, fun other hother ↦ hother.insert key⟩
    rintro _ ⟨⟩
    exact holds_insert_self h.numHashes_pos h.sized key
  | reload =>
    refine ⟨filter, fromBytes_toBytes h, h, ?_, fun _ hkey ↦ hkey⟩
    rintro _ ⟨⟩

theorem WellFormed.exists_run (h : filter.WellFormed) (ops : List Op) :
    ∃ final, run step filter ops = some final ∧ final.WellFormed ∧
      (∀ key, Op.insert key ∈ ops → final.Holds key) ∧
      ∀ key, filter.Holds key → final.Holds key := by
  induction ops generalizing filter with
  | nil => exact ⟨filter, rfl, h, fun _ hkey ↦ (by cases hkey), fun _ hkey ↦ hkey⟩
  | cons op ops ih =>
    obtain ⟨next, hnext, hwell, hinserted, hkept⟩ := h.exists_step op
    obtain ⟨final, hfinal, hwell, hlater, hkeptLater⟩ := ih hwell
    refine ⟨final, run_cons_eq_some.mpr ⟨next, hnext, hfinal⟩, hwell, ?_,
      fun key hkey ↦ hkeptLater key (hkept key hkey)⟩
    intro key hkey
    rcases List.mem_cons.mp hkey with heq | hrest
    · exact hkeptLater key (hinserted key heq.symm)
    · exact hlater key hrest

/-- Whatever was in a filter before, after any mix of insertions and reloads it
contains every key inserted, and its bytes read back as the filter itself. -/
theorem no_false_negatives (filter : BloomFilter) (hinv : filter.assertInvariants = true)
    (hbits : 64 ≤ filter.numBits) (ops : List Op) :
    ∃ final, run step filter ops = some final ∧
      (∀ key, Op.insert key ∈ ops → final.contains key = true) ∧
      fromBytes final.toBytes = some final := by
  obtain ⟨final, hrun, hwell, hinserted, -⟩ :=
    ((wellFormed_iff filter).mpr ⟨hinv, hbits⟩).exists_run ops
  exact ⟨final, hrun, fun key hkey ↦ (hinserted key hkey).contains, fromBytes_toBytes hwell⟩

theorem no_false_negatives_two_keys :
    (new ⟨0, 7, by decide, by decide, by decide⟩).assertInvariants = true ∧
      64 ≤ (new ⟨0, 7, by decide, by decide, by decide⟩).numBits ∧
      ∃ final, run step (new ⟨0, 7, by decide, by decide, by decide⟩)
          [.insert [1], .reload, .insert [2]] = some final ∧
        (∀ key, Op.insert key ∈ [Op.insert [1], .reload, .insert [2]] →
          final.contains key = true) ∧
        fromBytes final.toBytes = some final := by
  have hinv := (wellFormed_iff _).mp (wellFormed_new ⟨0, 7, by decide, by decide, by decide⟩)
  exact ⟨hinv.1, hinv.2, no_false_negatives _ hinv.1 hinv.2 _⟩

end BloomFilter

end HatP
