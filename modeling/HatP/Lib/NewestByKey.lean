import HatP.Lib.Newest

/-!
# Merging sources by key

The entries of several sources go into one map.  Of the entries of a key the one
with the greatest stamp stays, whatever the order of the sources.
-/

namespace Newest

variable {κ β T : Type*} [Ord κ] [Std.TransOrd κ] [Std.LawfulEqOrd κ] [LinearOrder T] {ts : β → T}
  {key : κ} {entries : List (κ × β)}

def insertNewest (ts : β → T) (map : Std.ExtTreeMap κ β) (entry : κ × β) : Std.ExtTreeMap κ β :=
  match map[entry.1]? with
  | some current => if ts current < ts entry.2 then map.insert entry.1 entry.2 else map
  | none => map.insert entry.1 entry.2

def merged (ts : β → T) (entries : List (κ × β)) : Std.ExtTreeMap κ β :=
  entries.foldl (insertNewest ts) ∅

theorem getElem?_insertNewest_self (map : Std.ExtTreeMap κ β) (entry : κ × β) :
    (insertNewest ts map entry)[entry.1]? =
      List.argAux (fun b c ↦ ts c < ts b) map[entry.1]? entry.2 := by
  cases hcurrent : map[entry.1]? with
  | none => simp [insertNewest, hcurrent, List.argAux]
  | some current =>
    by_cases hlt : ts current < ts entry.2
    · simp [insertNewest, hcurrent, List.argAux, hlt]
    · simp [insertNewest, hcurrent, List.argAux, hlt]

theorem getElem?_insertNewest_of_ne (map : Std.ExtTreeMap κ β) {entry : κ × β}
    (hne : entry.1 ≠ key) : (insertNewest ts map entry)[key]? = map[key]? := by
  have hcompare : compare entry.1 key ≠ .eq := fun h ↦ hne (Std.LawfulEqCmp.eq_of_compare h)
  rw [insertNewest]
  split
  · split
    · rw [Std.ExtTreeMap.getElem?_insert, if_neg hcompare]
    · rfl
  · rw [Std.ExtTreeMap.getElem?_insert, if_neg hcompare]

theorem getElem?_foldl_insertNewest [DecidableEq κ] (entries : List (κ × β))
    (map : Std.ExtTreeMap κ β) (key : κ) :
    (entries.foldl (insertNewest ts) map)[key]? =
      ((entries.filter fun entry ↦ decide (entry.1 = key)).map Prod.snd).foldl
        (List.argAux fun b c ↦ ts c < ts b) map[key]? := by
  induction entries generalizing map with
  | nil => rfl
  | cons entry entries ih =>
    rw [List.foldl_cons, ih]
    by_cases hkey : entry.1 = key
    · subst hkey
      rw [List.filter_cons_of_pos (by simp), List.map_cons, List.foldl_cons,
        getElem?_insertNewest_self]
    · rw [List.filter_cons_of_neg (by simpa using hkey), getElem?_insertNewest_of_ne map hkey]

theorem getElem?_merged [DecidableEq κ] (entries : List (κ × β)) (key : κ) :
    (merged ts entries)[key]? =
      ((entries.filter fun entry ↦ decide (entry.1 = key)).map Prod.snd).argmax ts := by
  rw [merged, getElem?_foldl_insertNewest, Std.ExtTreeMap.getElem?_empty]
  rfl

omit [Ord κ] [Std.TransOrd κ] [Std.LawfulEqOrd κ] in
theorem mem_filter_key [DecidableEq κ] {b : β} :
    b ∈ (entries.filter fun entry ↦ decide (entry.1 = key)).map Prod.snd ↔
      (key, b) ∈ entries := by
  constructor
  · intro hb
    obtain ⟨⟨key', b'⟩, hentry, rfl⟩ := List.mem_map.mp hb
    obtain ⟨hmem, hkey⟩ := List.mem_filter.mp hentry
    have hkey : key' = key := by simpa using hkey
    exact hkey ▸ hmem
  · intro hmem
    exact List.mem_map.mpr ⟨(key, b), List.mem_filter.mpr ⟨hmem, by simp⟩, rfl⟩

theorem isNewest_of_merged [DecidableEq κ] {b : β} (h : (merged ts entries)[key]? = some b) :
    (key, b) ∈ entries ∧ ∀ c, (key, c) ∈ entries → ts c ≤ ts b := by
  rw [getElem?_merged] at h
  exact ⟨mem_filter_key.mp (List.argmax_mem h),
    fun c hc ↦ List.le_of_mem_argmax (mem_filter_key.mpr hc) h⟩

theorem exists_merged [DecidableEq κ] {b : β}
    (h : (key, b) ∈ entries) : ∃ c, (merged ts entries)[key]? = some c := by
  rw [getElem?_merged]
  refine Option.ne_none_iff_exists'.mp fun hnone ↦ ?_
  have hmem := mem_filter_key.mpr h
  rw [List.argmax_eq_none.mp hnone] at hmem
  cases hmem

/-! ## Filtering before merging

A filter that drops entries before the merge keeps every entry with the property.
What it drops can still matter: a newer entry without the property would have
hidden an older one that has it. -/

section Filtered

variable [DecidableEq κ] {shown kept : List (κ × β)} {p : β → Prop}

theorem exists_merged_kept (hkept : kept ⊆ shown)
    (hkeeps : ∀ key b, (key, b) ∈ shown → p b → (key, b) ∈ kept) {key : κ} {b : β}
    (h : (merged ts shown)[key]? = some b) (hp : p b) :
    ∃ c, (merged ts kept)[key]? = some c ∧ ts c = ts b := by
  obtain ⟨hb, hmax⟩ := isNewest_of_merged h
  obtain ⟨c, hc⟩ : ∃ c, (merged ts kept)[key]? = some c := exists_merged (hkeeps key b hb hp)
  obtain ⟨hmem, hbound⟩ := isNewest_of_merged hc
  exact ⟨c, hc, le_antisymm (hmax c (hkept hmem)) (hbound b (hkeeps key b hb hp))⟩

/-- The filter exposes nothing exactly when every entry with the property that a
newer one hides stays hidden. -/
theorem merged_kept_iff (hkept : kept ⊆ shown)
    (hkeeps : ∀ key b, (key, b) ∈ shown → p b → (key, b) ∈ kept)
    (hcopies : ∀ key b c, (key, b) ∈ shown → (key, c) ∈ shown → ts b = ts c → p b → p c) :
    (∀ (key : κ) (b : β), (merged ts kept)[key]? = some b → p b →
        ∃ c, (merged ts shown)[key]? = some c ∧ ts c = ts b) ↔
      ∀ key b, (key, b) ∈ shown → p b → (∃ c, (key, c) ∈ shown ∧ ts b < ts c) →
        ∃ c, (key, c) ∈ kept ∧ ts b < ts c := by
  constructor
  · rintro h key b hb hp ⟨c, hc, hlt⟩
    obtain ⟨d, hd⟩ : ∃ d, (merged ts kept)[key]? = some d := exists_merged (hkeeps key b hb hp)
    obtain ⟨hmem, hbound⟩ := isNewest_of_merged hd
    refine ⟨d, hmem, lt_of_le_of_ne (hbound b (hkeeps key b hb hp)) fun heq ↦ ?_⟩
    -- If nothing newer is kept, an entry as new as `b` is newest after the filter.
    obtain ⟨x, hx, hts⟩ := h key d hd (hcopies key b d hb (hkept hmem) heq hp)
    have hle := (isNewest_of_merged hx).2 c hc
    rw [hts, ← heq] at hle
    exact absurd hle (not_le.mpr hlt)
  · intro h key b hb hp
    obtain ⟨hmem, hbound⟩ := isNewest_of_merged hb
    obtain ⟨c, hc⟩ : ∃ c, (merged ts shown)[key]? = some c := exists_merged (hkept hmem)
    obtain ⟨hcmem, hmax⟩ := isNewest_of_merged hc
    refine ⟨c, hc, le_antisymm (not_lt.mp fun hlt ↦ ?_) (hmax b (hkept hmem))⟩
    obtain ⟨d, hd, hlt⟩ := h key b (hkept hmem) hp ⟨c, hcmem, hlt⟩
    exact absurd (hbound d hd) (not_le.mpr hlt)

end Filtered

end Newest
