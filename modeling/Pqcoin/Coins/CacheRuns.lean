import Pqcoin.Coins.CacheMap

/-! Runs of calls on a stack of coins caches, against the same modifications of one map. -/

namespace Pqcoin

open WriteBack

-- Calls

/-- A call on a stack of caches. Lookups and modifications are made through the topmost cache,
and layers are counted from it.
-/
inductive CacheCall where
  | accessCoins (txid : Uint256)
  | modifyCoins (txid : Uint256) (modify : Coins → Coins)
  | modifyNewCoins (txid : Uint256) (coinbase : Bool) (modify : Coins → Coins)
  | uncache (layer : Nat) (txid : Uint256)
  | flush (layer : Nat)
  | push

namespace CacheStack

def onBase (base : CoinsDB) (below : Nat) : CacheStack := ⟨base, ∅, List.replicate below ∅⟩

def perform (call : CacheCall) (stack : CacheStack)
    : Except LogicError (List (Option Coins) × CacheStack) :=
  match call with
  | .accessCoins txid =>
    let (found, stack) := stack.accessCoins txid
    .ok ([found], stack)
  | .modifyCoins txid modify => .ok ([], stack.modifyCoins txid modify)
  | .modifyNewCoins txid coinbase modify =>
    (stack.modifyNewCoins txid coinbase modify).map fun stack => ([], stack)
  | .uncache layer txid => .ok ([], stack.uncache layer txid)
  | .flush layer => (stack.flush layer).map fun stack => ([], stack)
  | .push => .ok ([], stack.push)

def performAll : List CacheCall → CacheStack → Except LogicError (List (Option Coins) × CacheStack)
  | [], stack => .ok ([], stack)
  | call :: rest, stack =>
    match stack.perform call with
    | .error error => .error error
    | .ok (found, stack) =>
      match stack.performAll rest with
      | .error error => .error error
      | .ok (later, stack) => .ok (found ++ later, stack)

end CacheStack

-- The same calls on one map

namespace CacheCall

/-- What a call does to the map: only the modifications change it. -/
def apply (call : CacheCall) (table : CoinsTable) : CoinsTable :=
  match call with
  | .modifyCoins txid modify => putCoins table txid (modify (coinsAt table txid))
  | .modifyNewCoins txid _ modify => putCoins table txid (modify Coins.clear)
  | .accessCoins _ | .uncache _ _ | .flush _ | .push => table

def answer (call : CacheCall) (table : CoinsTable) : List (Option Coins) :=
  match call with
  | .accessCoins txid => [table txid]
  | .modifyCoins _ _ | .modifyNewCoins _ _ _ | .uncache _ _ | .flush _ | .push => []

def New (call : CacheCall) (table : CoinsTable) : Prop :=
  match call with
  | .modifyNewCoins txid coinbase _ => coinbase = false → table txid = none
  | .accessCoins _ | .modifyCoins _ _ | .uncache _ _ | .flush _ | .push => True

/-- Where the map has no coins, `ModifyCoins` does not read what a fully spent entry has left
behind.
-/
def Regular (call : CacheCall) (table : CoinsTable) : Prop :=
  match call with
  | .modifyCoins txid modify => table txid = none → Blind modify
  | .accessCoins _ | .modifyNewCoins _ _ _ | .uncache _ _ | .flush _ | .push => True

end CacheCall

def applyAll (calls : List CacheCall) (table : CoinsTable) : CoinsTable :=
  calls.foldl (fun table call => call.apply table) table

def answers : List CacheCall → CoinsTable → List (Option Coins)
  | [], _ => []
  | call :: rest, table => call.answer table ++ answers rest (call.apply table)

/-- Every call of a run meets a condition on the map at that point. -/
def Throughout (condition : CacheCall → CoinsTable → Prop) : List CacheCall → CoinsTable → Prop
  | [], _ => True
  | call :: rest, table => condition call table ∧ Throughout condition rest (call.apply table)

def unspentOf (base : CoinsDB) : CoinsTable := fun txid => shown Coins.isPruned (base txid)

-- Refinement

variable {stack : CacheStack} {table : CoinsTable}

/-- New caches show the database. -/
theorem holds_onBase (base below) : (CacheStack.onBase base below).Holds (unspentOf base) := by
  have caches : Holds base (List.replicate below ∅) (unspentOf base) := by
    induction below with
    | zero => exact ⟨trivial, fun _ => rfl⟩
    | succ below ih => exact ih.empty
  exact caches.empty

theorem CacheStack.Holds.perform (holds : stack.Holds table) {call}
    (new : call.New table) (regular : call.Regular table)
    : ∃ found after, stack.perform call = .ok (found, after)
      ∧ found.map (shown Coins.isPruned) = call.answer table
      ∧ after.Holds (call.apply table) := by
  cases call with
  | accessCoins txid =>
    obtain ⟨found, kept⟩ := holds.accessCoins txid
    exact ⟨_, _, rfl, congrArg (fun seen => [seen]) found, kept⟩
  | modifyCoins txid modify => exact ⟨[], _, rfl, rfl, holds.modifyCoins regular⟩
  | modifyNewCoins txid coinbase modify =>
    obtain ⟨after, passed, kept⟩ := holds.modifyNewCoins new modify
    exact ⟨[], after, by rw [CacheStack.perform, passed]; rfl, rfl, kept⟩
  | uncache layer txid => exact ⟨[], _, rfl, rfl, holds.uncache layer txid⟩
  | flush layer =>
    obtain ⟨after, passed, kept, -, -⟩ := holds.flush layer
    exact ⟨[], after, by rw [CacheStack.perform, passed]; rfl, rfl, kept⟩
  | push => exact ⟨[], _, rfl, rfl, holds.push⟩

/-- A run does what its calls do, by induction on the run. -/
theorem CacheStack.Holds.performAll (holds : stack.Holds table) {calls}
    (new : Throughout CacheCall.New calls table)
    (regular : Throughout CacheCall.Regular calls table)
    : ∃ found after, stack.performAll calls = .ok (found, after)
      ∧ found.map (shown Coins.isPruned) = answers calls table
      ∧ after.Holds (applyAll calls table) := by
  induction calls generalizing stack table with
  | nil => exact ⟨[], stack, rfl, rfl, holds⟩
  | cons call rest ih =>
    obtain ⟨found, middle, step, seen, held⟩ := holds.perform new.1 regular.1
    obtain ⟨later, after, run, more, kept⟩ := ih held new.2 regular.2
    refine ⟨found ++ later, after, by rw [CacheStack.performAll, step]; dsimp only; rw [run],
      ?_, kept⟩
    rw [List.map_append, seen, more, answers]

/-- Every run on new caches throws nothing, its lookups return the unspent coins of the map, and
flushing all caches leaves the database with the map.
-/
theorem caches_refine_map (base : CoinsDB) (below : Nat) (calls : List CacheCall)
    (new : Throughout CacheCall.New calls (unspentOf base))
    (regular : Throughout CacheCall.Regular calls (unspentOf base))
    : ∃ found stack flushed,
        (CacheStack.onBase base below).performAll calls = .ok (found, stack)
        ∧ found.map (shown Coins.isPruned) = answers calls (unspentOf base)
        ∧ stack.flushAll = .ok flushed
        ∧ unspentOf flushed.base = applyAll calls (unspentOf base) := by
  obtain ⟨found, stack, run, seen, kept⟩ := (holds_onBase base below).performAll new regular
  obtain ⟨flushed, written, shows⟩ := kept.flushAll
  exact ⟨found, stack, flushed, run, seen, written, funext shows⟩

def mintedCoins : Coins := { fCoinBase := true, vout := [⟨50, []⟩], nHeight := 7, nVersion := 1 }

def mintCall : CacheCall := .modifyNewCoins 1 true (fun _ => mintedCoins)
def spendCall : CacheCall := .modifyCoins 1 (fun coins => (coins.spend 0).2)

def reviveCall : CacheCall := .modifyCoins 1 (fun coins =>
  if coins.fCoinBase then { coins with vout := [⟨50, []⟩] } else coins)

/-- Coins that are made, flushed, spent and flushed again. -/
theorem caches_refine_map_spent
    : ∃ found stack flushed,
        (CacheStack.onBase (fun _ => none) 1).performAll
            [mintCall, .flush 0, .accessCoins 1, spendCall, .accessCoins 1, .flush 1]
          = .ok (found, stack)
        ∧ found.map (shown Coins.isPruned) = [some mintedCoins, none]
        ∧ stack.flushAll = .ok flushed
        ∧ unspentOf flushed.base 1 = none := by
  obtain ⟨found, stack, flushed, run, seen, written, shows⟩ := caches_refine_map
    (fun _ => none) 1 [mintCall, .flush 0, .accessCoins 1, spendCall, .accessCoins 1, .flush 1]
    (by simp [Throughout, CacheCall.New, mintCall, spendCall])
    ⟨trivial, trivial, trivial, fun unknown => absurd unknown (by decide), trivial, trivial,
      trivial⟩
  exact ⟨found, stack, flushed, run, seen, written, congrFun shows 1⟩

/-- The same modifications, with and without a `Flush` between them, end with different unspent
outputs: a spent entry keeps its coinbase mark in the cache, and loses it in the database. The
map sees no difference between the runs.
-/
theorem revived_unless_flushed
    : Throughout CacheCall.New [mintCall, spendCall, reviveCall, .accessCoins 1]
        (unspentOf fun _ => none)
      ∧ Throughout CacheCall.New [mintCall, spendCall, .flush 0, reviveCall, .accessCoins 1]
        (unspentOf fun _ => none)
      ∧ ((CacheStack.onBase (fun _ => none) 0).performAll
          [mintCall, spendCall, reviveCall, .accessCoins 1]).map Prod.fst
        = .ok [some mintedCoins]
      ∧ ((CacheStack.onBase (fun _ => none) 0).performAll
          [mintCall, spendCall, .flush 0, reviveCall, .accessCoins 1]).map Prod.fst
        = .ok [none]
      ∧ answers [mintCall, spendCall, reviveCall, .accessCoins 1] (unspentOf fun _ => none)
        = answers [mintCall, spendCall, .flush 0, reviveCall, .accessCoins 1]
          (unspentOf fun _ => none)
      ∧ shown Coins.isPruned (some mintedCoins) ≠ shown Coins.isPruned none := by
  refine ⟨?_, ?_, by decide, by decide, rfl, by decide⟩
  · simp [Throughout, CacheCall.New, mintCall, spendCall, reviveCall]
  · simp [Throughout, CacheCall.New, mintCall, spendCall, reviveCall]

end Pqcoin
