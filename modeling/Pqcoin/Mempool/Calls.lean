import Pqcoin.Mempool.RemoveForReorg

/-! The calls that the node makes on the memory pool, and the relay index along runs of them:
`clear` is the only call that breaks it.
-/

namespace Pqcoin

open Option SlotIndex

namespace TxMemPool

-- Calls

/-- The round of `DisconnectTip` for a transaction of the block, with the txids of those that are
back in the pool.
-/
def resurrectTx (C : MempoolContext) (O : AcceptOptions) (state : TxMemPool × List Uint256)
    (req : AcceptRequest)
    : Option (TxMemPool × List Uint256) :=
  let tx := req.candidate.tx
  let (pool, vHashUpdate) := state
  if tx.isCoinBase then (pool.removeRecursive C tx).map (·, vHashUpdate)
  else
    (pool.acceptToMemoryPoolWorker C O { req with fOverrideMempoolLimit := true }).bind
      fun outcome =>
        match outcome.state with
        | .error _ => (outcome.pool.removeRecursive C tx).map (·, vHashUpdate)
        | .ok () =>
          some (outcome.pool,
            if tx.getHash C.hashing ∈ outcome.pool.mapTx then
              vHashUpdate ++ [tx.getHash C.hashing]
            else vHashUpdate)

def disconnectTip (C : MempoolContext) (O : AcceptOptions) (pool : TxMemPool)
    (requests : List AcceptRequest)
    : Option TxMemPool :=
  (requests.foldlM (resurrectTx C O) (pool, [])).bind fun (pool, vHashUpdate) =>
    pool.updateTransactionsFromBlock C vHashUpdate

inductive Call where
  | acceptToMemoryPool (O : AcceptOptions) (req : AcceptRequest)
  | removeRecursive (origTx : Transaction)
  | removeForBlock (vtx : List Transaction)
  | disconnectTip (O : AcceptOptions) (requests : List AcceptRequest)
  | removeForReorg (view : ReorgView)
  | expire (time : Int)
  | trimToSize (limit : SizeLimit)
  | prioritiseTransaction (hash : Uint256) (nFeeDelta : Amount)
  | clear

def step (C : MempoolContext) (pool : TxMemPool) : Call → Option TxMemPool
  | .acceptToMemoryPool O req =>
    (pool.acceptToMemoryPoolWorker C O req).map (fun outcome => outcome.pool)
  | .removeRecursive origTx => pool.removeRecursive C origTx
  | .removeForBlock vtx => pool.removeForBlock C vtx
  | .disconnectTip O requests => pool.disconnectTip C O requests
  | .removeForReorg view => pool.removeForReorg C view
  | .expire time => pool.expire C time
  | .trimToSize limit => pool.trimToSize C limit
  | .prioritiseTransaction hash nFeeDelta => pool.prioritiseTransaction C hash nFeeDelta
  | .clear => some pool.clear

variable {C : MempoolContext} {O : AcceptOptions} {pool after : TxMemPool}

-- The relay index

theorem Indexed.resurrectTx {state next} {req}
    (indexed : Indexed C state.1) (ran : resurrectTx C O state req = some next)
    : Indexed C next.1 := by
  rw [TxMemPool.resurrectTx] at ran
  split at ran
  · obtain ⟨pool, removed, rfl⟩ := map_eq_some_iff.mp ran
    exact (shrinks_removeRecursive removed indexed).1
  obtain ⟨outcome, accepted, ran⟩ := bind_eq_some_iff.mp ran
  have kept := (indexed.accept accepted).1
  split at ran
  · obtain ⟨pool, removed, rfl⟩ := map_eq_some_iff.mp ran
    exact (shrinks_removeRecursive removed kept).1
  · cases ran
    exact kept

theorem Indexed.disconnectTip {requests} (indexed : Indexed C pool)
    (ran : pool.disconnectTip C O requests = some after)
    : Indexed C after := by
  obtain ⟨state, resurrected, updated⟩ := bind_eq_some_iff.mp ran
  have kept : Indexed C state.1 :=
    Folds.foldlM_keeps (P := fun state => Indexed C state.1)
      (fun _ _ _ same ran => same.resurrectTx ran) indexed resurrected
  exact (Adjusted.updateTransactionsFromBlock updated).indexed kept

theorem Indexed.removeForReorg {view} (indexed : Indexed C pool)
    (ran : pool.removeForReorg C view = some after)
    : Indexed C after := by
  obtain ⟨state, scanned, removed⟩ := bind_eq_some_iff.mp ran
  have kept : Indexed C state.1 := by
    refine Folds.foldlM_keeps (P := fun state => Indexed C state.1)
      (fun state it next same ran => ?_) indexed scanned
    rw [ReorgView.scanRound] at ran
    obtain ⟨entry, -, decided⟩ := bind_eq_some_iff.mp ran
    obtain ⟨⟨removes, lp⟩, -, ran⟩ := bind_eq_some_iff.mp decided
    dsimp only at ran
    split at ran
    · cases ran
      exact same
    obtain ⟨changed, modified, rfl⟩ := map_eq_some_iff.mp ran
    refine same.modify (fun entry changed updated => ?_) modified
    cases updated
    exact ⟨rfl, rfl⟩
  exact ((shrinks_removeStaged removed).1 kept).1

theorem Indexed.step {call} (indexed : Indexed C pool) (ran : pool.step C call = some after)
    : Indexed C after ↔ (call = .clear → pool.mapTx.keys = []) := by
  have keeps (kept : Indexed C after) (other : call ≠ .clear)
      : Indexed C after ↔ (call = .clear → pool.mapTx.keys = []) :=
    ⟨fun _ same => absurd same other, fun _ => kept⟩
  cases call with
  | acceptToMemoryPool O req =>
    obtain ⟨outcome, accepted, rfl⟩ := map_eq_some_iff.mp ran
    exact keeps (indexed.accept accepted).1 (by simp)
  | removeRecursive origTx => exact keeps (shrinks_removeRecursive ran indexed).1 (by simp)
  | removeForBlock vtx => exact keeps (shrinks_removeForBlock ran indexed).1 (by simp)
  | disconnectTip O requests => exact keeps (indexed.disconnectTip ran) (by simp)
  | removeForReorg view => exact keeps (indexed.removeForReorg ran) (by simp)
  | expire time => exact keeps (shrinks_expire ran indexed).1 (by simp)
  | trimToSize limit => exact keeps (shrinks_trimToSize ran indexed).1 (by simp)
  | prioritiseTransaction hash nFeeDelta => exact keeps (indexed.prioritise ran) (by simp)
  | clear =>
    cases ran
    rw [forall_prop_of_true rfl]
    constructor
    · intro cleared
      by_contra nonempty
      obtain ⟨it, rest, keys⟩ := List.exists_cons_of_ne_nil nonempty
      have mem : it ∈ pool.mapTx := by
        rw [AList.mem_keys, keys]
        exact .head _
      -- the element for the entry is still there, and refers to nothing
      obtain ⟨idx, known⟩ := isSome_iff_exists.mp (hashIdx_isSome.mpr mem)
      obtain ⟨item, placed, rfl⟩ := indexed.slots.there it idx known
      have lost := cleared.slots.exact idx item placed
      cases lost
    · intro empty
      have none : pool.vTxHashes = [] := by
        cases hashes : pool.vTxHashes with
        | nil => rfl
        | cons item rest =>
          have known := indexed.slots.exact 0 item (by rw [hashes]; rfl)
          have mem := AList.mem_keys.mp (hashIdx_isSome.mp (isSome_iff_exists.mpr ⟨0, known⟩))
          rw [empty] at mem
          cases mem
      refine ⟨⟨fun i item placed => ?_, fun k i known => by cases known⟩, fun item listed => ?_⟩
      · have placed : pool.vTxHashes[i]? = some item := placed
        rw [none] at placed
        cases placed
      · have listed : item ∈ pool.vTxHashes := listed
        rw [none] at listed
        cases listed

/-- The index is exact in every state of a run: one element of `vTxHashes` for each entry, at the
position that the entry has stored, with its witness hash.
-/
def AlwaysIndexed (C : MempoolContext) (pool : TxMemPool) : List Call → Prop
  | [] => Indexed C pool
  | call :: rest =>
    Indexed C pool ∧ ∀ after, pool.step C call = some after → AlwaysIndexed C after rest

def ClearsEmpty (C : MempoolContext) (pool : TxMemPool) : List Call → Prop
  | [] => True
  | call :: rest =>
    (call = .clear → pool.mapTx.keys = [])
    ∧ ∀ after, pool.step C call = some after → ClearsEmpty C after rest

theorem AlwaysIndexed.first {calls} (always : AlwaysIndexed C pool calls) : Indexed C pool := by
  cases calls with
  | nil => exact always
  | cons call rest => exact always.1

theorem Indexed.run {calls} (indexed : Indexed C pool)
    : AlwaysIndexed C pool calls ↔ ClearsEmpty C pool calls := by
  induction calls generalizing pool with
  | nil => exact ⟨fun _ => trivial, fun _ => indexed⟩
  | cons call rest ih =>
    constructor
    · rintro ⟨-, later⟩
      refine ⟨fun clears => ?_, fun after ran => (ih (later after ran).first).mp (later after ran)⟩
      subst clears
      exact (indexed.step rfl).mp (later pool.clear rfl).first rfl
    · rintro ⟨clears, later⟩
      exact ⟨indexed, fun after ran =>
        (ih ((indexed.step ran).mpr clears)).mpr (later after ran)⟩

/-- The relay index is exact in every state of a run of calls on the new pool, if and only if
`clear` is called on an empty pool only.
-/
theorem relay_index_exact_iff (C : MempoolContext) (calls : List Call)
    : AlwaysIndexed C {} calls ↔ ClearsEmpty C {} calls :=
  (Indexed.empty C).run

namespace StaleIndex

open DroppedReplacement

def calls : List Call :=
  [.acceptToMemoryPool options { replacing with fOverrideMempoolLimit := true }, .clear]

/-- A pool that is cleared keeps the hashes of its entries. -/
theorem cleared_pool_keeps_hashes : ¬ AlwaysIndexed ctx {} calls := by
  intro always
  have entered : (step ctx {} (.acceptToMemoryPool options
      { replacing with fOverrideMempoolLimit := true })).map (fun pool => pool.vTxHashes.length)
      = some 1 := by decide +kernel
  obtain ⟨pool, accepted, length⟩ := map_eq_some_iff.mp entered
  have cleared : Indexed ctx pool.clear := ((always.2 pool accepted).2 pool.clear rfl)
  obtain ⟨item, listed⟩ := List.exists_mem_of_length_pos (l := pool.clear.vTxHashes)
    (by rw [TxMemPool.clear, length]; decide)
  obtain ⟨i, placed⟩ := List.mem_iff_getElem?.mp listed
  have lost := cleared.slots.exact i item placed
  cases lost

end StaleIndex

end TxMemPool

end Pqcoin
