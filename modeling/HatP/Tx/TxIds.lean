import HatP.Engine
import HatP.Lib.CompareExchange

/-!
# Transaction ids under concurrency

`next_tx_id` is one atomic counter.  `alloc_tx_id` takes an id from it, and
`write_with_tx` raises it above the id it was given, both by compare-exchange
loops; an autocommit write does the one after the other.
-/

namespace HatP

open CompareExchange Transition

/-- The loops on the counter. -/
inductive CounterOp
  | reserveTxId
  /-- The allocation of an autocommit write, which then raises the counter too. -/
  | write
  | reserve (txId : ℕ)
deriving DecidableEq

namespace CounterOp

def next : CounterOp → ℕ → Option ℕ
  | .reserveTxId, current | .write, current => some (allocTxId current).2
  | .reserve txId, current =>
    let target := min (txId + 1) maxU64
    if target > current then some target else none

def follow : CounterOp → ℕ → Option CounterOp
  | .write, seen => some (.reserve (allocTxId seen).1)
  | _, _ => none

def allocated : CounterOp → ℕ → Option ℕ
  | .reserveTxId, seen | .write, seen => some (allocTxId seen).1
  | .reserve _, _ => none

def txId : CounterOp → ℕ → ℕ
  | .reserveTxId, seen | .write, seen => (allocTxId seen).1
  | .reserve txId, _ => txId

def loops : Loops CounterOp ℕ := ⟨next, follow⟩

end CounterOp

inductive TxCall
  | reserveTxId
  | write (mutations : List Mutation)
  | writeWithTx (txId : ℕ) (mutations : List Mutation)

def TxCall.enters : TxCall → Except EngineError CounterOp
  | .reserveTxId => .ok .reserveTxId
  | .write mutations => if mutations = [] then .error .emptyBatch else .ok .write
  | .writeWithTx txId mutations =>
    if mutations = [] then .error .emptyBatch
    else if txId = 0 then .error (.corrupt "tx_id 0 is reserved as sentinel")
    else .ok (.reserve txId)

inductive TxMove (τ : Type*)
  | call (thread : τ) (call : TxCall)
  | load (thread : τ)
  | exchange (thread : τ) (spurious : Bool)

abbrev TxCounter (τ : Type*) := CompareExchange.State τ CounterOp ℕ

namespace TxCounter

variable {τ : Type*}

def opened (nextTxId : ℕ) : TxCounter τ := ⟨nextTxId, fun _ ↦ .idle, []⟩

def allocatedIds (s : TxCounter τ) : List ℕ :=
  (outcomes s.history).filterMap fun (op, seen) ↦ op.allocated seen

def IdsBelowMax (s : TxCounter τ) : Prop :=
  ∀ o ∈ outcomes s.history, o.1.txId o.2 < maxU64

instance (s : TxCounter τ) : Decidable s.IdsBelowMax :=
  inferInstanceAs (Decidable (∀ o ∈ outcomes s.history, o.1.txId o.2 < maxU64))

variable [DecidableEq τ]

def step (s : TxCounter τ) : TxMove τ → Option (TxCounter τ)
  | .call thread call =>
    match call.enters with
    | .ok op => CompareExchange.step CounterOp.loops s (.call thread op)
    | .error _ => some s
  | .load thread => CompareExchange.step CounterOp.loops s (.load thread)
  | .exchange thread spurious => CompareExchange.step CounterOp.loops s (.exchange thread spurious)

theorem exists_replays_step {s t : TxCounter τ} {move : TxMove τ} (h : s.step move = some t) :
    ∃ ops, outcomes t.history = outcomes s.history ++ ops ∧
      Replays CounterOp.loops s.cell ops t.cell := by
  cases move with
  | call thread call =>
    rw [step] at h
    cases henters : call.enters with
    | ok op =>
      rw [henters] at h
      exact CompareExchange.exists_replays_step h
    | error _ =>
      rw [henters] at h
      cases h
      exact ⟨[], (List.append_nil _).symm, rfl⟩
  | load thread | exchange thread spurious =>
    rw [step] at h
    exact CompareExchange.exists_replays_step h

end TxCounter

/-! ## One operation -/

namespace CounterOp

variable {op : CounterOp} {seen : ℕ}

theorem le_allocTxId (seen : ℕ) : seen ≤ (allocTxId seen).1 := by
  simp only [allocTxId]
  split <;> omega

theorem allocTxId_pos (seen : ℕ) : 0 < (allocTxId seen).1 := by
  simp only [allocTxId]
  split <;> omega

theorem allocTxId_counter (h : (allocTxId seen).1 < maxU64) :
    (allocTxId seen).2 = (allocTxId seen).1 + 1 := by
  simp only [allocTxId, maxU64] at h ⊢
  exact Nat.mod_eq_of_lt (by omega)

theorem applied_reserve {txId : ℕ} (h : txId < maxU64) :
    loops.applied (.reserve txId) seen = max seen (txId + 1) := by
  have htarget : min (txId + 1) maxU64 = txId + 1 := min_eq_left h
  simp only [Loops.applied, loops, next, htarget]
  split
  · rename_i hgt
    exact (max_eq_right (Nat.le_of_lt hgt)).symm
  · rename_i hle
    exact (max_eq_left (Nat.le_of_not_lt hle)).symm

theorem le_applied (h : op.txId seen < maxU64) :
    seen ≤ loops.applied op seen ∧ op.txId seen < loops.applied op seen := by
  have halloc : (allocTxId seen).1 < maxU64 →
      seen ≤ (allocTxId seen).2 ∧ (allocTxId seen).1 < (allocTxId seen).2 := by
    intro hlt
    rw [allocTxId_counter hlt]
    exact ⟨(le_allocTxId seen).trans (Nat.le_succ _), Nat.lt_succ_self _⟩
  cases op with
  | reserveTxId | write => exact halloc h
  | reserve txId =>
    rw [applied_reserve (show txId < maxU64 from h)]
    exact ⟨le_max_left _ _, (Nat.lt_succ_self txId).trans_le (le_max_right _ _)⟩

theorem allocated_eq_some {id : ℕ} (h : op.allocated seen = some id) :
    id = op.txId seen ∧ 0 < id ∧ seen ≤ id := by
  cases op with
  | reserveTxId | write =>
    cases h
    exact ⟨rfl, allocTxId_pos seen, le_allocTxId seen⟩
  | reserve txId => cases h

end CounterOp

namespace TxCounter

variable {τ : Type*} [DecidableEq τ] {nextTxId : ℕ} {moves : List (TxMove τ)} {s : TxCounter τ}

theorem pairwise_outcomes (hrun : run step (opened nextTxId) moves = some s)
    (hbelow : s.IdsBelowMax) :
    (outcomes s.history).Pairwise fun o p ↦ o.1.txId o.2 < p.2 := by
  obtain ⟨ops, houtcomes, hreplays⟩ := exists_replays (fun _ _ _ ↦ exists_replays_step) hrun
  have hops : outcomes s.history = ops := houtcomes
  rw [IdsBelowMax, hops] at hbelow
  rw [hops]
  refine (hreplays.pairwise fun o ho ↦ (CounterOp.le_applied (hbelow o ho)).1).imp_of_mem ?_
  intro o p ho _ hle
  exact (CounterOp.le_applied (hbelow o ho)).2.trans_le hle

theorem pairwise_allocatedIds (hrun : run step (opened nextTxId) moves = some s)
    (hbelow : s.IdsBelowMax) : s.allocatedIds.Pairwise (· < ·) := by
  rw [allocatedIds, List.pairwise_filterMap]
  refine (pairwise_outcomes hrun hbelow).imp ?_
  intro o p hlt id hid later hlater
  rw [(CounterOp.allocated_eq_some hid).1]
  exact hlt.trans_le (CounterOp.allocated_eq_some hlater).2.2

theorem cell_le {t : TxCounter τ} (hrun : run step s moves = some t)
    (hbelow : t.IdsBelowMax) : s.cell ≤ t.cell := by
  obtain ⟨ops, houtcomes, hreplays⟩ := exists_replays (fun _ _ _ ↦ exists_replays_step) hrun
  refine hreplays.le fun o ho ↦ (CounterOp.le_applied (hbelow o ?_)).1
  rw [houtcomes]
  exact List.mem_append_right _ ho

/-- In every interleaving of the loops, as long as ids stay below `u64::MAX`: the
ids handed out are distinct and not zero, the counter never decreases, and an
allocation that starts after a reservation has ended gets a higher id. -/
theorem tx_ids_never_regress (nextTxId : ℕ) (moves : List (TxMove τ)) (s : TxCounter τ)
    (hrun : run step (opened nextTxId) moves = some s) (hbelow : s.IdsBelowMax) :
    s.allocatedIds.Nodup ∧ 0 ∉ s.allocatedIds ∧
      (∀ before after u, moves = before ++ after →
        run step (opened nextTxId) before = some u → u.cell ≤ s.cell) ∧
      ∀ writer caller t op seen seen' id,
        [.finished writer (.reserve t) seen, .started caller op, .finished caller op seen'].Sublist
          s.history →
        op.allocated seen' = some id → t < id := by
  refine ⟨(pairwise_allocatedIds hrun hbelow).imp Nat.ne_of_lt, ?_, ?_, ?_⟩
  · intro hzero
    obtain ⟨o, -, ho⟩ := List.mem_filterMap.mp hzero
    exact (CounterOp.allocated_eq_some ho).2.1.false
  · rintro before after u rfl hbefore
    obtain ⟨v, hv, hafter⟩ := run_append_eq_some.mp hrun
    obtain rfl : u = v := Option.some.inj (hbefore.symm.trans hv)
    exact cell_le hafter hbelow
  · intro writer caller t op seen seen' id hsub hid
    have hpair := (pairwise_outcomes hrun hbelow).sublist (hsub.filterMap _)
    have hlt : t < seen' := List.rel_of_pairwise_cons hpair (.head _)
    exact hlt.trans_le (CounterOp.allocated_eq_some hid).2.2

/-- Two threads race for an id, one of them after a spurious failure, while a
third reserves a higher one. -/
def race : List (TxMove (Fin 3)) :=
  [.call 0 .reserveTxId, .call 1 (.write [.delete [7]]), .load 0, .load 1, .exchange 1 true,
    .exchange 1 false, .exchange 0 false, .load 1, .call 2 (.writeWithTx 40 [.delete [7]]),
    .load 2, .exchange 0 false, .exchange 2 false, .exchange 2 false, .call 0 .reserveTxId,
    .load 0, .exchange 0 false]

theorem tx_ids_never_regress_race :
    ∃ s, run step (opened 1) race = some s ∧ s.IdsBelowMax ∧
      s.allocatedIds = [1, 2, 41] ∧ s.allocatedIds.Nodup ∧ 0 ∉ s.allocatedIds := by
  refine ⟨_, rfl, by decide +kernel, by decide +kernel, ?_⟩
  have hids := tx_ids_never_regress 1 race _ rfl (by decide +kernel)
  exact ⟨hids.1, hids.2.1⟩

end TxCounter

end HatP
