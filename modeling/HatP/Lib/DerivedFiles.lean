import Mathlib

/-!
# Derived files behind a cache

A derived file can be rebuilt from its source, so its writes may fail and a
cache in memory answers before the disk does.  A store of such files tracks its
sources when whatever it would answer was built from the source that is there
now.  The danger is a name that is used again: a write that fails leaves the
file and the cache entry of the previous use.
-/

namespace DerivedFiles

open Std (ExtTreeMap LawfulEqCmp LawfulEqOrd ReflCmp TransOrd)

/-- How a write ends: a failed one leaves the previous file, or nothing that can
be read. -/
inductive WriteResult
  | written
  | failed (kept : Bool)
deriving DecidableEq

structure Store (κ α : Type*) [Ord κ] where
  files : ExtTreeMap κ α
  cache : ExtTreeMap κ α

namespace Store

section Operations

variable {κ α : Type*} [Ord κ] [TransOrd κ]

def empty : Store κ α := ⟨∅, ∅⟩

/-- A cache that has reached its limit is emptied first. -/
def fill (limit : Option ℕ) (cache : ExtTreeMap κ α) (name : κ) (a : α) : ExtTreeMap κ α :=
  (if limit.any (· ≤ cache.size) then ∅ else cache).insert name a

def write (s : Store κ α) (limit : Option ℕ) (name : κ) (a : α) : WriteResult → Store κ α
  | .written => ⟨s.files.insert name a, fill limit s.cache name a⟩
  | .failed kept => { s with files := if kept then s.files else s.files.erase name }

def lookup (s : Store κ α) (name : κ) : Option α := (s.cache[name]?).or s.files[name]?

def load (s : Store κ α) (limit : Option ℕ) (name : κ) : Store κ α :=
  match s.cache[name]?, s.files[name]? with
  | none, some a => { s with cache := fill limit s.cache name a }
  | _, _ => s

def retire (s : Store κ α) (name : κ) (removed : Bool) : Store κ α where
  files := if removed then s.files.erase name else s.files
  cache := s.cache.erase name

def reopened (s : Store κ α) : Store κ α := { s with cache := ∅ }

end Operations

variable {κ α β : Type*} [Ord κ] [TransOrd κ] {s : Store κ α} {limit : Option ℕ}
  {name other : κ} {a x : α} {result : WriteResult} {source source' : κ → Option β}
  {Built : β → α → Prop} {cache files : ExtTreeMap κ α} {o : Option α}

/-- The store may answer `a` for `name`. -/
def Mentions (s : Store κ α) (name : κ) (a : α) : Prop :=
  s.cache[name]? = some a ∨ s.files[name]? = some a

/-- The file is `a`, and so is what the cache may have of it. -/
def Backs (s : Store κ α) (name : κ) (a : Option α) : Prop :=
  s.files[name]? = a ∧ (s.cache[name]? = none ∨ s.cache[name]? = a)

/-- Whatever the store may answer was built from the current source. -/
def Tracks (s : Store κ α) (source : κ → Option β) (Built : β → α → Prop) : Prop :=
  ∀ name a, s.Mentions name a → ∀ b, source name = some b → Built b a

/-- A write with this result leaves nothing of a previous use of the name. -/
def Replaces (s : Store κ α) (name : κ) : WriteResult → Prop
  | .written => True
  | .failed kept => s.cache[name]? = none ∧ (kept = true → s.files[name]? = none)

instance decidableReplaces (s : Store κ α) (name : κ) : DecidablePred (s.Replaces name)
  | .written => isTrue trivial
  | .failed _ => inferInstanceAs (Decidable (_ ∧ _))

theorem mentions_of_lookup (h : s.lookup name = some a) : s.Mentions name a := by
  rw [lookup, Option.or_eq_some_iff] at h
  exact h.imp_right And.right

theorem mentions_reopened (h : s.reopened.Mentions other x) : s.Mentions other x := by
  rcases h with hcache | hfile
  · simp [reopened] at hcache
  · exact .inr hfile

theorem tracks_empty : (empty : Store κ α).Tracks source Built := by
  rintro name a (hcache | hfile)
  · simp [empty] at hcache
  · simp [empty] at hfile

theorem Tracks.mono {s' : Store κ α} (h : s.Tracks source Built)
    (hmentions : ∀ name a, s'.Mentions name a → s.Mentions name a)
    (hsource : ∀ name b, source' name = some b → source name = some b) :
    s'.Tracks source' Built :=
  fun name a hmem b hb ↦ h name a (hmentions name a hmem) b (hsource name b hb)

/-! ## The size of the cache -/

theorem size_fill_le {n : ℕ} (hn : 0 < n) :
    (fill (some n) cache name a).size ≤ n := by
  rw [fill]
  by_cases hfull : n ≤ cache.size
  · rw [if_pos (by simpa using hfull)]
    exact ExtTreeMap.size_insert_le.trans (by simpa using Nat.succ_le_of_lt hn)
  · rw [if_neg (by simpa using hfull)]
    exact ExtTreeMap.size_insert_le.trans (by omega)

theorem size_cache_write_le {n : ℕ} (hn : 0 < n) (h : s.cache.size ≤ n) :
    (s.write (some n) name a result).cache.size ≤ n := by
  cases result with
  | written => exact size_fill_le hn
  | failed kept => exact h

theorem size_cache_retire_le (s : Store κ α) (name : κ) (removed : Bool) :
    (s.retire name removed).cache.size ≤ s.cache.size :=
  ExtTreeMap.size_erase_le

variable [LawfulEqOrd κ]

/-! ## What the operations leave -/

theorem getElem?_fill (h : (fill limit cache name a)[other]? = some x) :
    name = other ∧ a = x ∨ name ≠ other ∧ cache[other]? = some x := by
  rw [fill, ExtTreeMap.getElem?_insert] at h
  split at h
  next heq => exact .inl ⟨LawfulEqCmp.eq_of_compare heq, Option.some.inj h⟩
  next hne =>
    refine .inr ⟨fun heq ↦ hne (heq ▸ ReflCmp.compare_self), ?_⟩
    split at h
    next => simp at h
    next => exact h

theorem getElem?_erase_of_some (h : (files.erase name)[other]? = some x) :
    name ≠ other ∧ files[other]? = some x := by
  rw [ExtTreeMap.getElem?_erase] at h
  split at h
  next => cases h
  next hne => exact ⟨fun heq ↦ hne (heq ▸ ReflCmp.compare_self), h⟩

theorem mentions_write (hreplaces : s.Replaces name result)
    (h : (s.write limit name a result).Mentions other x) :
    name = other ∧ a = x ∨ name ≠ other ∧ s.Mentions other x := by
  cases result with
  | written =>
    rcases h with hcache | hfile
    · exact (getElem?_fill hcache).imp_right fun ⟨hne, hold⟩ ↦ ⟨hne, .inl hold⟩
    · have hinsert : (fill none s.files name a)[other]? = some x := hfile
      exact (getElem?_fill hinsert).imp_right fun ⟨hne, hold⟩ ↦ ⟨hne, .inr hold⟩
  | failed kept =>
    obtain ⟨hcache, hfiles⟩ := hreplaces
    rcases h with hold | hfile
    · refine .inr ⟨fun heq ↦ ?_, .inl hold⟩
      have hsome : s.cache[name]? = some x := heq ▸ hold
      exact Option.some_ne_none x (hsome.symm.trans hcache)
    · cases kept with
      | true =>
        refine .inr ⟨fun heq ↦ ?_, .inr hfile⟩
        have hsome : s.files[name]? = some x := heq ▸ hfile
        exact Option.some_ne_none x (hsome.symm.trans (hfiles rfl))
      | false =>
        have hold := getElem?_erase_of_some hfile
        exact .inr ⟨hold.1, .inr hold.2⟩

theorem mentions_load (h : (s.load limit name).Mentions other x) : s.Mentions other x := by
  rw [load] at h
  split at h
  next a hcache hfile =>
    rcases h with hfilled | hold
    · rcases getElem?_fill hfilled with ⟨rfl, rfl⟩ | ⟨-, hold⟩
      · exact .inr hfile
      · exact .inl hold
    · exact .inr hold
  next => exact h

theorem mentions_retire {removed : Bool} (h : (s.retire name removed).Mentions other x) :
    s.Mentions other x := by
  rcases h with hcache | hfile
  · exact .inl (getElem?_erase_of_some hcache).2
  · cases removed with
    | true => exact .inr (getElem?_erase_of_some hfile).2
    | false => exact .inr hfile

/-! ## Backed entries -/

theorem getElem?_erase_of_ne (hne : name ≠ other) :
    (files.erase name)[other]? = files[other]? := by
  rw [ExtTreeMap.getElem?_erase, if_neg]
  exact fun heq ↦ hne (LawfulEqCmp.eq_of_compare heq)

theorem Backs.fill (h : s.Backs other o) (hfile : s.files[name]? = some x) :
    ({ s with cache := Store.fill limit s.cache name x } : Store κ α).Backs other o := by
  refine ⟨h.1, ?_⟩
  dsimp only
  cases hfilled : (Store.fill limit s.cache name x)[other]? with
  | none => exact .inl rfl
  | some y =>
    right
    rcases getElem?_fill hfilled with ⟨rfl, rfl⟩ | ⟨-, hold⟩
    · rw [← h.1, hfile]
    · exact hold.symm.trans (h.2.resolve_left (by simp [hold]))

theorem Backs.unlink (h : s.Backs other o) (hne : name ≠ other) :
    ({ s with files := s.files.erase name } : Store κ α).Backs other o := by
  refine ⟨?_, h.2⟩
  dsimp only
  rw [getElem?_erase_of_ne hne]
  exact h.1

theorem Backs.evict (h : s.Backs other o) (hne : name ≠ other) :
    ({ s with cache := s.cache.erase name } : Store κ α).Backs other o := by
  refine ⟨h.1, ?_⟩
  dsimp only
  rw [getElem?_erase_of_ne hne]
  exact h.2

/-! ## Tracking -/

theorem Tracks.write (h : s.Tracks source Built) (hreplaces : s.Replaces name result)
    (hother : ∀ other, name ≠ other → source' other = source other)
    (hbuilt : ∀ b, source' name = some b → Built b a) :
    (s.write limit name a result).Tracks source' Built := by
  intro other x hmem b hb
  rcases mentions_write hreplaces hmem with ⟨rfl, rfl⟩ | ⟨hne, hold⟩
  · exact hbuilt b hb
  · exact h other x hold b (hother other hne ▸ hb)

theorem Replaces.write {result' : WriteResult} (h : s.Replaces other result') (hne : name ≠ other) :
    (s.write limit name a result).Replaces other result' := by
  have hinsert : ∀ (limit : Option ℕ) {map : ExtTreeMap κ α}, map[other]? = none →
      (fill limit map name a)[other]? = none := fun limit map hnone ↦ by
    cases hfilled : (fill limit map name a)[other]? with
    | none => rfl
    | some x =>
      rcases getElem?_fill hfilled with ⟨heq, -⟩ | ⟨-, hold⟩
      · exact absurd heq hne
      · exact absurd (hold.symm.trans hnone) (Option.some_ne_none x)
  have herase : ∀ {map : ExtTreeMap κ α}, map[other]? = none →
      (map.erase name)[other]? = none := fun {map} hnone ↦ by
    rw [ExtTreeMap.getElem?_erase]
    split
    · rfl
    · exact hnone
  cases result' with
  | written => trivial
  | failed kept' =>
    cases result with
    | written => exact ⟨hinsert limit h.1, fun hkept ↦ hinsert none (h.2 hkept)⟩
    | failed kept =>
      refine ⟨h.1, fun hkept ↦ ?_⟩
      cases kept with
      | true => exact h.2 hkept
      | false => exact herase (h.2 hkept)

end Store

end DerivedFiles
