import HatP.Tx.Manager

/-!
# Detection of dependency cycles

The search of `validate_cahill` over the active transactions: it stops on every
graph, and it rejects the committer exactly when a path of read-write
dependencies leads from the committer through active peers back to it.
-/

namespace HatP

open Std (ExtTreeMap)

def cahillLoop (contexts : ExtTreeMap ℕ SsiTxn) (txn : SsiTxn) (pops : ℕ) : Option Bool :=
  Worklist.loop (outgoingOf contexts) txn.handle.id pops [txn.handle.id]
    (outgoing contexts txn).reverse

def CyclePath (contexts : ExtTreeMap ℕ SsiTxn) (id : ℕ) (via : List ℕ) : Prop :=
  via ≠ [] ∧ List.IsChain (RwEdge contexts) (id :: (via ++ [id]))

variable {contexts : ExtTreeMap ℕ SsiTxn} {r : ℕ → ℕ → Prop}

/-- Every context is expanded at most once, and an expansion pushes at most one
id for each of them. -/
theorem cahillLoop_eq (contexts : ExtTreeMap ℕ SsiTxn) (txn : SsiTxn) {pops : ℕ}
    (hpops : contexts.size + contexts.size * contexts.size ≤ pops) :
    cahillLoop contexts txn pops = some (reachesCommitter contexts txn) := by
  unfold cahillLoop reachesCommitter
  apply Worklist.loop_eq_search (fun _ ↦ outgoingOf_eq_nil) _ pops hpops
  rw [List.length_reverse]
  exact Nat.add_le_add (length_outgoing_le contexts txn) (unexplored_outgoingOf_le contexts _)

theorem exists_path_of_transGen {a b : ℕ} (h : Relation.TransGen r a b) :
    ∃ via, List.IsChain r (a :: (via ++ [b])) := by
  induction h using Relation.TransGen.head_induction_on with
  | single hstep => exact ⟨[], List.isChain_pair.mpr hstep⟩
  | @head a c hstep _ ih =>
    obtain ⟨via, hchain⟩ := ih
    exact ⟨c :: via, List.isChain_cons_cons.mpr ⟨hstep, hchain⟩⟩

theorem transGen_of_path {a b : ℕ} {via : List ℕ}
    (h : List.IsChain r (a :: (via ++ [b]))) : Relation.TransGen r a b := by
  induction via generalizing a with
  | nil => exact .single (List.isChain_pair.mp h)
  | cons c via ih =>
    obtain ⟨hstep, hrest⟩ := List.isChain_cons_cons.mp h
    exact .head hstep (ih hrest)

theorem onCycle_iff_exists_path {id : ℕ} :
    OnCycle contexts id ↔ ∃ via, CyclePath contexts id via := by
  constructor
  · intro h
    obtain ⟨via, hchain⟩ := exists_path_of_transGen h
    refine ⟨via, ?_, hchain⟩
    rintro rfl
    exact (List.isChain_pair.mp hchain).1 rfl
  · rintro ⟨via, -, hchain⟩
    exact transGen_of_path hchain

/-- The search ends on every graph of active transactions, and the committer is
rejected exactly when a path leads from it through active peers back to it. -/
theorem validateCahill_exact {txn : SsiTxn} (hkeyed : Keyed contexts)
    (htxn : contexts[txn.handle.id]? = some txn) :
    (∃ bound, ∀ pops, bound ≤ pops →
        cahillLoop contexts txn pops = some (reachesCommitter contexts txn)) ∧
      ((∃ err, validateCahill txn contexts = .error err) ↔
        ∃ via, CyclePath contexts txn.handle.id via) := by
  refine ⟨⟨_, fun pops hpops ↦ cahillLoop_eq contexts txn hpops⟩, ?_⟩
  rw [← onCycle_iff_exists_path, ← not_iff_not, ← validateCahill_eq_ok_iff hkeyed htxn]
  cases validateCahill txn contexts with
  | ok => simp
  | error err => simp

def readerWriter (id : ℕ) (read write : UInt8) : SsiTxn :=
  ((SsiTxn.new ⟨id, .snapshot, .active⟩ 0).recordRead [read]).recordWrite [write]

/-- Each of three transactions has read what the one before it wrote. -/
def threeParty : ExtTreeMap ℕ SsiTxn :=
  ((ExtTreeMap.empty.insert 1 (readerWriter 1 65 66)).insert 2
    (readerWriter 2 66 67)).insert 3 (readerWriter 3 67 65)

theorem keyed_threeParty : Keyed threeParty := by
  intro id txn h
  simp only [threeParty, ExtTreeMap.getElem?_insert, Nat.compare_eq_eq] at h
  split_ifs at h with h3 h2 h1
  · exact (congrArg (·.handle.id) (Option.some.inj h)).symm.trans h3
  · exact (congrArg (·.handle.id) (Option.some.inj h)).symm.trans h2
  · exact (congrArg (·.handle.id) (Option.some.inj h)).symm.trans h1
  · simp at h

theorem validateCahill_exact_threeParty :
    Keyed threeParty ∧ threeParty[1]? = some (readerWriter 1 65 66) ∧
      (∃ err, validateCahill (readerWriter 1 65 66) threeParty = .error err) ∧
        ∃ via, CyclePath threeParty 1 via := by
  have htxn : threeParty[1]? = some (readerWriter 1 65 66) := by
    simp only [threeParty, ExtTreeMap.getElem?_insert, Nat.compare_eq_eq]
    rfl
  have hreject : ∃ err, validateCahill (readerWriter 1 65 66) threeParty = .error err :=
    ⟨.readWriteConflict 1 [66], by decide⟩
  exact ⟨keyed_threeParty, htxn, hreject, (validateCahill_exact keyed_threeParty htxn).2.mp hreject⟩

end HatP
