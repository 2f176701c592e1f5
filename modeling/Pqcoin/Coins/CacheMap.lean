import Mathlib.Data.List.AList
import Pqcoin.Coins.Coins
import Pqcoin.Lib.Checks
import Pqcoin.Lib.WriteBack

/-! The coins caches of `coins.cpp`, stacked on a coins database. A stack of them stands for one map
from txids to unspent coins: what every operation on the caches does to that map.
-/

namespace Pqcoin

open AList List WriteBack
open Coins (counted isPruned)

-- Caches

/-- `CCoinsCacheEntry`: the coins, with the flags `DIRTY` and `FRESH`. -/
abbrev CoinsCacheEntry := Entry Coins

abbrev CoinsMap := AList (fun _ : Uint256 => CoinsCacheEntry)

/-- What a coins database answers, by txid. -/
abbrev CoinsDB := Uint256 → Option Coins

/-- A stack of caches: the topmost, and those below it down to the database. -/
structure CacheStack where
  base : CoinsDB
  cacheCoins : CoinsMap
  below : List CoinsMap

inductive LogicError where
  | preExistingCoins
  | freshMisapplied
  deriving DecidableEq

/-- `FetchCoins`: the coins it finds, with the cache and those below afterwards.
`getBelow` is what `GetCoins` does below.
-/
def fetchCoins (txid : Uint256) (cacheCoins : CoinsMap) (below : List CoinsMap)
    (getBelow : Option Coins × List CoinsMap)
    : Option Coins × CoinsMap × List CoinsMap :=
  match cacheCoins.lookup txid with
  | some entry => (some entry.value, cacheCoins, below)
  | none =>
    match getBelow with
    | (none, below) => (none, cacheCoins, below)
    | (some coins, below) =>
      -- an entry that is empty below counts as fresh
      (some coins, cacheCoins.insert txid ⟨coins, false, coins.isPruned⟩, below)

/-- `GetCoins` of the first of some caches, which is that of the database when there is none,
and the caches afterwards.
-/
def getCoins (base : CoinsDB) (txid : Uint256) : List CoinsMap → Option Coins × List CoinsMap
  | [] => (base txid, [])
  | cacheCoins :: below =>
    let (found, cacheCoins, below) := fetchCoins txid cacheCoins below (getCoins base txid below)
    (found, cacheCoins :: below)

/-- The destructor of a `CCoinsModifier`, on the entry as it was modified. -/
def release (cacheCoins : CoinsMap) (txid : Uint256) (entry : CoinsCacheEntry) : CoinsMap :=
  let coins := entry.value.cleanup
  if entry.fresh && coins.isPruned then cacheCoins.erase txid
  else cacheCoins.insert txid ⟨coins, entry.dirty, entry.fresh⟩

/-- The entry that `ModifyCoins` finds or creates, before it is marked `DIRTY`, and the caches
below afterwards.
-/
def entryToModify (stack : CacheStack) (txid : Uint256) : CoinsCacheEntry × List CoinsMap :=
  match stack.cacheCoins.lookup txid with
  | some entry => (entry, stack.below)
  | none =>
    match getCoins stack.base txid stack.below with
    | (none, below) => (⟨Coins.clear, false, true⟩, below)
    | (some coins, below) => (⟨coins, false, coins.isPruned⟩, below)

namespace CacheStack

variable (txid : Uint256)

def accessCoins (stack : CacheStack) : Option Coins × CacheStack :=
  let (found, cacheCoins, below) :=
    fetchCoins txid stack.cacheCoins stack.below (getCoins stack.base txid stack.below)
  (found, ⟨stack.base, cacheCoins, below⟩)

def modifyCoins (modify : Coins → Coins) (stack : CacheStack) : CacheStack :=
  let (entry, below) := entryToModify stack txid
  {
    stack with
    cacheCoins := release stack.cacheCoins txid ⟨modify entry.value, true, entry.fresh⟩
    below
  }

def modifyNewCoins (coinbase : Bool) (modify : Coins → Coins) (stack : CacheStack)
    : Except LogicError CacheStack :=
  let entry := (stack.cacheCoins.lookup txid).getD ⟨{}, false, false⟩
  if !coinbase && !entry.value.isPruned then .error .preExistingCoins
  else
    let fresh := entry.fresh || (!coinbase && !entry.dirty)
    .ok
      {
        stack with
        cacheCoins := release stack.cacheCoins txid ⟨modify Coins.clear, true, fresh⟩
      }

end CacheStack

-- Flushing

/-- A round of `CCoinsViewCache::BatchWrite`: the entry that the parent has for a txid after
it, given those of the child and of the parent before.
-/
def writeEntry (child : CoinsCacheEntry) (parent : Option CoinsCacheEntry)
    : Except LogicError (Option CoinsCacheEntry) :=
  if child.dirty then
    match parent with
    | none =>
      if child.fresh && child.value.isPruned then .ok none
      else .ok (some ⟨child.value, true, child.fresh⟩)
    | some us =>
      if child.fresh && !us.value.isPruned then .error .freshMisapplied
      else if us.fresh && child.value.isPruned then .ok none
      else .ok (some ⟨child.value, true, us.fresh⟩)
  else .ok parent

/-- The parent with a given entry, or none, for a txid. -/
def setEntry (cacheCoins : CoinsMap) (txid : Uint256) (entry : Option CoinsCacheEntry)
    : CoinsMap :=
  match entry with
  | none => cacheCoins.erase txid
  | some entry => cacheCoins.insert txid entry

def batchWriteLoop (parent : CoinsMap)
    : List (Sigma fun _ : Uint256 => CoinsCacheEntry) → Except LogicError CoinsMap
  | [] => .ok parent
  | ⟨txid, entry⟩ :: rest =>
    match writeEntry entry (parent.lookup txid) with
    | .error error => .error error
    | .ok written => batchWriteLoop (setEntry parent txid written) rest

def batchWrite (mapCoins parent : CoinsMap) : Except LogicError CoinsMap :=
  batchWriteLoop parent mapCoins.entries

def batchWriteDB (mapCoins : CoinsMap) (base : CoinsDB) : CoinsDB := fun txid =>
  match mapCoins.lookup txid with
  | none => base txid
  | some entry =>
    if entry.dirty then if entry.value.isPruned then none else some entry.value
    else base txid

def writeBelow (base : CoinsDB) (mapCoins : CoinsMap)
    : List CoinsMap → Except LogicError (CoinsDB × List CoinsMap)
  | [] => .ok (batchWriteDB mapCoins base, [])
  | parent :: below =>
    match batchWrite mapCoins parent with
    | .error error => .error error
    | .ok parent => .ok (base, parent :: below)

/-- `Flush` of one of some caches, counted from the first. -/
def flushLayer (base : CoinsDB)
    : Nat → List CoinsMap → Except LogicError (CoinsDB × List CoinsMap)
  | _, [] => .ok (base, [])
  | 0, cacheCoins :: below =>
    match writeBelow base cacheCoins below with
    | .error error => .error error
    | .ok (base, below) => .ok (base, ∅ :: below)
  | layer + 1, cacheCoins :: below =>
    match flushLayer base layer below with
    | .error error => .error error
    | .ok (base, below) => .ok (base, cacheCoins :: below)

def uncacheFrom (cacheCoins : CoinsMap) (txid : Uint256) : CoinsMap :=
  match cacheCoins.lookup txid with
  | none => cacheCoins
  | some entry => if entry.dirty || entry.fresh then cacheCoins else cacheCoins.erase txid

namespace CacheStack

def flush (layer : Nat) (stack : CacheStack) : Except LogicError CacheStack :=
  match layer with
  | 0 =>
    match writeBelow stack.base stack.cacheCoins stack.below with
    | .error error => .error error
    | .ok (base, below) => .ok ⟨base, ∅, below⟩
  | layer + 1 =>
    match flushLayer stack.base layer stack.below with
    | .error error => .error error
    | .ok (base, below) => .ok ⟨base, stack.cacheCoins, below⟩

def uncache (layer : Nat) (txid : Uint256) (stack : CacheStack) : CacheStack :=
  match layer with
  | 0 => { stack with cacheCoins := uncacheFrom stack.cacheCoins txid }
  | layer + 1 => { stack with below := stack.below.modify layer (uncacheFrom · txid) }

def flushAll (stack : CacheStack) : Except LogicError CacheStack :=
  (List.range (stack.below.length + 1)).foldlM (fun stack layer => stack.flush layer) stack

/-- A new `CCoinsViewCache` on the topmost one. -/
def push (stack : CacheStack) : CacheStack :=
  ⟨stack.base, ∅, stack.cacheCoins :: stack.below⟩

end CacheStack

def entriesOf (cacheCoins : CoinsMap) : Layer Uint256 Coins := fun txid => cacheCoins.lookup txid

/-- The caches are coherent, and the table shows through them. -/
def Holds (base : CoinsDB) (caches : List CoinsMap) (table : CoinsTable) : Prop :=
  Shows Coins.isPruned base (caches.map entriesOf) table

def shownBy (base : CoinsDB) (caches : List CoinsMap) : CoinsTable := fun txid =>
  shown Coins.isPruned (view base (caches.map entriesOf) txid)

def CacheStack.Holds (stack : CacheStack) (table : CoinsTable) : Prop :=
  Pqcoin.Holds stack.base (stack.cacheCoins :: stack.below) table

variable {base : CoinsDB} {cacheCoins : CoinsMap} {caches below : List CoinsMap}
  {table : CoinsTable} {txid : Uint256}

theorem Holds.tail (holds : Holds base (cacheCoins :: below) table)
    : Holds base below (shownBy base below) :=
  Coherent.shows holds.coherent.2

theorem view_of_lookup {entry} (present : cacheCoins.lookup txid = some entry)
    : view base ((cacheCoins :: below).map entriesOf) txid = some entry.value := by
  rw [map_cons]
  exact view_of_entry present

theorem view_of_missing (missing : cacheCoins.lookup txid = none)
    : view base ((cacheCoins :: below).map entriesOf) txid
      = view base (below.map entriesOf) txid := by
  rw [map_cons]
  exact view_of_no_entry missing

-- Lookups

/-- `FetchCoins` finds what is seen, and shows the same afterwards. -/
theorem fetchCoins_spec {getBelow} (holds : Holds base (cacheCoins :: below) table)
    (found : getBelow.1 = view base (below.map entriesOf) txid)
    (kept : Holds base getBelow.2 (shownBy base below))
    : (fetchCoins txid cacheCoins below getBelow).1
        = view base ((cacheCoins :: below).map entriesOf) txid
      ∧ Holds base ((fetchCoins txid cacheCoins below getBelow).2.1
          :: (fetchCoins txid cacheCoins below getBelow).2.2) table := by
  obtain ⟨answer, after⟩ := getBelow
  unfold fetchCoins
  cases present : cacheCoins.lookup txid with
  | some entry => exact ⟨(view_of_lookup present).symm, holds⟩
  | none =>
    have under := Shows.under holds kept
    have seen := (view_of_missing present).trans found.symm
    cases answer with
    | none => exact ⟨seen.symm, under⟩
    | some coins =>
      have below : shown isPruned (view base (after.map entriesOf) txid)
          = shown isPruned (some coins) :=
        (kept.seen txid).trans (congrArg _ found.symm)
      refine ⟨seen.symm, ?_⟩
      rw [← Function.update_eq_self txid table]
      refine Shows.update under (fun other different => lookup_insert_ne different)
        (fun entry inserted => ?_) ?_
      · rw [entriesOf, lookup_insert, Option.some.injEq] at inserted
        subst entry
        exact ⟨fun fresh => below.trans (shown_some_eq_none.mpr fresh), fun _ => below.symm⟩
      · rw [entriesOf, lookup_insert, ← holds.seen txid, seen]
        rfl

/-- `GetCoins` finds what is seen, and shows the same afterwards. -/
theorem getCoins_spec (holds : Holds base caches table) (txid)
    : (getCoins base txid caches).1 = view base (caches.map entriesOf) txid
      ∧ Holds base (getCoins base txid caches).2 table := by
  induction caches generalizing table with
  | nil => exact ⟨rfl, holds⟩
  | cons cacheCoins below ih =>
    obtain ⟨found, kept⟩ := ih holds.tail
    exact fetchCoins_spec holds found kept

-- Modifications

theorem shown_cleanup (coins : Coins) : shown isPruned (some coins.cleanup) = coins.counted := by
  rw [counted]
  split
  · rename_i spent
    exact shown_some_eq_none.mpr (by rwa [Coins.isPruned_cleanup])
  · rename_i unspent
    exact shown_of_alive (by simpa using unspent)

/-- The destructor of a modifier writes the entry to the map. -/
theorem Holds.release {coins fresh} (holds : Holds base (cacheCoins :: below) table)
    (absent : fresh = true → shownBy base below txid = none)
    : Holds base (release cacheCoins txid ⟨coins, true, fresh⟩ :: below)
        (putCoins table txid coins) := by
  simp only [Pqcoin.release]
  split
  · rename_i dropped
    obtain ⟨isFresh, spent⟩ := Bool.and_eq_true_iff.mp dropped
    refine Shows.update holds (fun other different => lookup_erase_ne different)
      (fun entry present => ?_) ?_
    · rw [entriesOf, lookup_erase] at present
      cases present
    · rw [entriesOf, lookup_erase, counted, if_pos (by simpa using spent)]
      exact absent isFresh
  · refine Shows.update holds (fun other different => lookup_insert_ne different)
      (fun entry present => ?_) ?_
    · rw [entriesOf, lookup_insert, Option.some.injEq] at present
      subst entry
      exact Entry.Sound.written absent
    · rw [entriesOf, lookup_insert]
      exact shown_cleanup coins

theorem entryToModify_spec {stack} (holds : stack.Holds table) (txid)
    : Holds stack.base (stack.cacheCoins :: (entryToModify stack txid).2) table
      ∧ shown isPruned (some (entryToModify stack txid).1.value) = table txid
      ∧ ((entryToModify stack txid).1.fresh = true
        → shownBy stack.base (entryToModify stack txid).2 txid = none) := by
  unfold entryToModify
  cases present : stack.cacheCoins.lookup txid with
  | some entry =>
    refine ⟨holds, ?_, (holds.coherent.1 txid entry present).fresh⟩
    rw [← holds.seen txid, view_of_lookup present]
  | none =>
    obtain ⟨found, kept⟩ := getCoins_spec holds.tail txid
    have seen := holds.seen txid
    rw [view_of_missing present, ← found] at seen
    have after := kept.seen txid
    rw [shownBy, ← found] at after
    cases answer : getCoins stack.base txid stack.below with
    | mk coins below =>
      rw [answer] at kept seen after
      cases coins with
      | none =>
        refine ⟨Shows.under holds kept, ?_, fun _ => after⟩
        rw [← seen]
        rfl
      | some coins =>
        exact ⟨Shows.under holds kept, seen,
          fun fresh => after.trans (shown_some_eq_none.mpr fresh)⟩

/-- A modification that does not read what a fully spent entry has left behind. -/
def Blind (modify : Coins → Coins) : Prop :=
  ∀ spent : Coins, spent.isPruned = true → (modify spent).counted = (modify Coins.clear).counted

theorem counted_modify {modify coins} (seen : shown isPruned (some coins) = table txid)
    (blind : table txid = none → Blind modify)
    : (modify coins).counted = (modify (coinsAt table txid)).counted := by
  rw [coinsAt]
  cases known : table txid with
  | none =>
    rw [known] at seen
    exact blind known coins (shown_some_eq_none.mp seen)
  | some unspent =>
    rw [known] at seen
    have same := (eq_of_shown_eq_some seen).1
    rw [Option.some.inj same, Option.getD_some]

theorem CacheStack.Holds.modifyCoins {stack : CacheStack} (holds : stack.Holds table) {modify}
    (blind : table txid = none → Blind modify)
    : (stack.modifyCoins txid modify).Holds
        (putCoins table txid (modify (coinsAt table txid))) := by
  obtain ⟨kept, seen, absent⟩ := entryToModify_spec holds txid
  rw [putCoins, ← counted_modify seen blind]
  exact Pqcoin.Holds.release kept absent

/-- `ModifyNewCoins` starts from an empty entry. For a transaction that is no coinbase, the
map must have none, and then nothing is thrown.
-/
theorem CacheStack.Holds.modifyNewCoins {stack : CacheStack} (holds : stack.Holds table) {coinbase}
    (unknown : coinbase = false → table txid = none) (modify : Coins → Coins)
    : ∃ after, stack.modifyNewCoins txid coinbase modify = .ok after
      ∧ after.Holds (putCoins table txid (modify Coins.clear)) := by
  have seen := holds.seen txid
  simp only [CacheStack.modifyNewCoins]
  cases present : stack.cacheCoins.lookup txid with
  | none =>
    rw [view_of_missing present] at seen
    refine ⟨_, if_neg (by simp [isPruned]), Pqcoin.Holds.release holds ?_⟩
    cases coinbase with
    | true => simp
    | false => exact fun _ => seen.trans (unknown rfl)
  | some entry =>
    rw [view_of_lookup present] at seen
    have sound := holds.coherent.1 txid entry present
    cases coinbase with
    | true =>
      refine ⟨_, if_neg (by simp), Pqcoin.Holds.release holds (fun fresh => ?_)⟩
      exact sound.fresh (by simpa using fresh)
    | false =>
      have spent := shown_some_eq_none.mp (seen.trans (unknown rfl))
      refine ⟨_, if_neg (by simp [spent]), Pqcoin.Holds.release holds (fun fresh => ?_)⟩
      cases clean : entry.dirty with
      | true => exact sound.fresh (by simpa [clean] using fresh)
      | false => exact (sound.clean clean).symm.trans (shown_some_eq_none.mpr spent)

-- Flushing

theorem writeEntry_spec {child parent behind}
    (sound : ∀ us, parent = some us → us.Sound isPruned behind)
    (upper : child.Sound isPruned (overlay parent behind))
    : ∃ written, writeEntry child parent = .ok written
      ∧ (∀ entry, written = some entry → entry.Sound isPruned behind)
      ∧ shown isPruned (overlay written behind)
        = shown isPruned (some child.value) := by
  cases dirty : child.dirty with
  | false => exact ⟨parent, by simp [writeEntry, dirty], sound, (upper.clean dirty).symm⟩
  | true =>
    simp only [writeEntry, dirty, if_true]
    cases parent with
    | none =>
      dsimp only
      split
      · rename_i dropped
        obtain ⟨fresh, spent⟩ := Bool.and_eq_true_iff.mp dropped
        exact ⟨none, rfl, by simp, (upper.fresh fresh).trans (shown_some_eq_none.mpr spent).symm⟩
      · refine ⟨_, rfl, ?_, rfl⟩
        rintro entry ⟨⟩
        exact Entry.Sound.written upper.fresh
    | some us =>
      have unspent : (child.fresh && !us.value.isPruned) = false := by
        cases fresh : child.fresh with
        | false => rfl
        | true => simpa using shown_some_eq_none.mp (upper.fresh fresh)
      dsimp only
      rw [unspent, if_neg Bool.false_ne_true]
      split
      · rename_i dropped
        obtain ⟨fresh, spent⟩ := Bool.and_eq_true_iff.mp dropped
        exact ⟨none, rfl, by simp,
          ((sound us rfl).fresh fresh).trans (shown_some_eq_none.mpr spent).symm⟩
      · refine ⟨_, rfl, ?_, rfl⟩
        rintro entry ⟨⟩
        exact Entry.Sound.written (sound us rfl).fresh

theorem batchWriteLoop_spec {parent entries} (nodup : entries.NodupKeys)
    (passes : ∀ txid child, entries.dlookup txid = some child
      → ∃ written, writeEntry child (parent.lookup txid) = .ok written)
    : ∃ after, batchWriteLoop parent entries = .ok after
      ∧ ∀ txid, match entries.dlookup txid with
        | none => after.lookup txid = parent.lookup txid
        | some child => writeEntry child (parent.lookup txid) = .ok (after.lookup txid) := by
  induction entries generalizing parent with
  | nil => exact ⟨parent, rfl, fun txid => by simp⟩
  | cons entry rest ih =>
    obtain ⟨txid, child⟩ := entry
    obtain ⟨fresh, nodup⟩ := nodupKeys_cons.mp nodup
    obtain ⟨written, round⟩ := passes txid child (dlookup_cons_eq rest txid child)
    have here : (setEntry parent txid written).lookup txid = written := by
      cases written <;> simp [setEntry]
    have elsewhere (other) (different : other ≠ txid)
        : (setEntry parent txid written).lookup other = parent.lookup other := by
      cases written with
      | none => exact lookup_erase_ne different
      | some entry => exact lookup_insert_ne different
    have apart {other} {found}
        (present : rest.dlookup other = some found) : other ≠ txid := by
      rintro rfl
      rw [dlookup_eq_none.mpr fresh] at present
      cases present
    obtain ⟨after, loop, looked⟩ := @ih (setEntry parent txid written) nodup
      (fun other found present => by
        rw [elsewhere other (apart present)]
        exact passes other found ((dlookup_cons_ne rest _ (apart present)).trans present))
    refine ⟨after, by rw [batchWriteLoop, round]; exact loop, fun other => ?_⟩
    have later := looked other
    by_cases same : other = txid
    · subst other
      rw [dlookup_eq_none.mpr fresh, here] at later
      rw [dlookup_cons_eq rest txid child, later]
      exact round
    · rw [dlookup_cons_ne rest ⟨txid, child⟩ same]
      rw [elsewhere other same] at later
      exact later

/-- `BatchWrite` into a cache throws nothing, and that cache then shows what the child did. -/
theorem Holds.batchWrite {mapCoins parent} (holds : Holds base (mapCoins :: parent :: below) table)
    : ∃ after, batchWrite mapCoins parent = .ok after ∧ Holds base (after :: below) table := by
  have written (txid) (child)
      (present : mapCoins.lookup txid = some child) :=
    writeEntry_spec (holds.coherent.2.1 txid) (holds.coherent.1 txid child present)
  obtain ⟨after, loop, looked⟩ := batchWriteLoop_spec mapCoins.nodupKeys
    fun txid child present => (written txid child present).imp fun _ spec => spec.1
  have round (txid)
      : (∀ entry, after.lookup txid = some entry
          → entry.Sound isPruned (view base (below.map entriesOf) txid))
        ∧ shown isPruned (overlay (after.lookup txid) (view base (below.map entriesOf) txid))
          = table txid := by
    have result := looked txid
    have seen := holds.seen txid
    cases present : mapCoins.lookup txid with
    | none =>
      rw [show dlookup txid mapCoins.entries = none from present] at result
      rw [view_of_missing present] at seen
      rw [result]
      exact ⟨holds.coherent.2.1 txid, seen⟩
    | some child =>
      rw [show dlookup txid mapCoins.entries = some child from present] at result
      rw [view_of_lookup present] at seen
      obtain ⟨entry, ends, sound, shows⟩ := written txid child present
      have same : after.lookup txid = entry := Except.ok.inj (result.symm.trans ends)
      rw [same]
      exact ⟨sound, shows.trans seen⟩
  exact ⟨after, loop, ⟨fun txid => (round txid).1, holds.coherent.2.2⟩, fun txid => (round txid).2⟩

/-- `BatchWrite` into the database leaves it with what the child showed. -/
theorem Holds.batchWriteDB {mapCoins} (holds : Holds base [mapCoins] table)
    : Holds (batchWriteDB mapCoins base) [] table := by
  refine ⟨trivial, fun txid => ?_⟩
  have seen := holds.seen txid
  change shown isPruned (Pqcoin.batchWriteDB mapCoins base txid) = table txid
  rw [Pqcoin.batchWriteDB]
  cases present : mapCoins.lookup txid with
  | none =>
    rw [view_of_missing present] at seen
    exact seen
  | some entry =>
    rw [view_of_lookup present] at seen
    rw [← seen]
    dsimp only
    cases dirty : entry.dirty with
    | false => exact ((holds.coherent.1 txid entry present).clean dirty).symm
    | true =>
      rw [if_pos rfl]
      split
      · rename_i spent
        exact (shown_some_eq_none.mpr spent).symm
      · rfl

theorem Holds.writeBelow {mapCoins} (holds : Holds base (mapCoins :: below) table)
    : ∃ base' below', writeBelow base mapCoins below = .ok (base', below')
      ∧ Holds base' below' table ∧ below'.length = below.length := by
  cases below with
  | nil => exact ⟨_, _, rfl, holds.batchWriteDB, rfl⟩
  | cons parent below =>
    obtain ⟨after, written, kept⟩ := holds.batchWrite
    exact ⟨base, after :: below, by rw [Pqcoin.writeBelow, written], kept, rfl⟩

/-- An empty cache shows what is below it. -/
theorem Holds.empty (holds : Holds base caches table) : Holds base (∅ :: caches) table :=
  Shows.empty holds lookup_empty

/-- `Flush` of any cache throws nothing and does not show. It empties that cache, and does not
touch those above.
-/
theorem Holds.flushLayer (holds : Holds base caches table) (layer)
    : ∃ base' caches', flushLayer base layer caches = .ok (base', caches')
      ∧ Holds base' caches' table
      ∧ caches'.length = caches.length
      ∧ ((∀ cacheCoins ∈ caches.take layer, cacheCoins = ∅)
        → ∀ cacheCoins ∈ caches'.take (layer + 1), cacheCoins = ∅) := by
  induction caches generalizing table layer with
  | nil => exact ⟨base, [], by rw [Pqcoin.flushLayer], holds, rfl, by simp⟩
  | cons cacheCoins below ih =>
    cases layer with
    | zero =>
      obtain ⟨base', below', written, kept, length⟩ := holds.writeBelow
      exact ⟨base', ∅ :: below', by rw [Pqcoin.flushLayer, written], kept.empty,
        by simp [length], by simp⟩
    | succ layer =>
      obtain ⟨base', below', flushed, kept, length, empties⟩ := ih holds.tail layer
      refine ⟨base', cacheCoins :: below', by rw [Pqcoin.flushLayer, flushed],
        Shows.under holds kept, by simp [length], fun above => ?_⟩
      simp only [take_succ_cons, forall_mem_cons] at above ⊢
      exact ⟨above.1, empties above.2⟩

theorem Holds.uncacheFrom (holds : Holds base (cacheCoins :: below) table) (txid)
    : Holds base (uncacheFrom cacheCoins txid :: below) table := by
  rw [Pqcoin.uncacheFrom]
  cases present : cacheCoins.lookup txid with
  | none => exact holds
  | some entry =>
    dsimp only
    split
    · exact holds
    rename_i unmarked
    have sound := holds.coherent.1 txid entry present
    have seen := holds.seen txid
    rw [view_of_lookup present, sound.clean (by simp_all)] at seen
    rw [← Function.update_eq_self txid table]
    refine Shows.update holds (fun other different => lookup_erase_ne different)
      (fun entry found => ?_) ?_
    · rw [entriesOf, lookup_erase] at found
      cases found
    · rw [entriesOf, lookup_erase]
      exact seen

theorem Holds.uncache (holds : Holds base caches table) (layer txid)
    : Holds base (caches.modify layer (Pqcoin.uncacheFrom · txid)) table := by
  induction caches generalizing table layer with
  | nil => rwa [modify_nil]
  | cons cacheCoins below ih =>
    cases layer with
    | zero => exact holds.uncacheFrom txid
    | succ layer => exact Shows.under holds (ih holds.tail layer)

theorem Holds.atBase (holds : Holds base caches table)
    (empty : ∀ cacheCoins ∈ caches, cacheCoins = ∅) (txid)
    : shown isPruned (base txid) = table txid := by
  rw [← holds.seen txid]
  clear holds
  induction caches with
  | nil => rfl
  | cons cacheCoins below ih =>
    obtain ⟨rfl, others⟩ := forall_mem_cons.mp empty
    rw [ih others, view_of_missing (lookup_empty txid)]

namespace CacheStack

theorem flush_eq (stack : CacheStack) (layer)
    : flushLayer stack.base layer (stack.cacheCoins :: stack.below)
      = (stack.flush layer).map (fun after => (after.base, after.cacheCoins :: after.below)) := by
  cases layer with
  | zero =>
    rw [flushLayer, flush]
    cases writeBelow stack.base stack.cacheCoins stack.below <;> rfl
  | succ layer =>
    rw [flushLayer, flush]
    cases flushLayer stack.base layer stack.below <;> rfl

variable {stack : CacheStack} (holds : stack.Holds table)

include holds

theorem Holds.accessCoins (txid)
    : shown isPruned (stack.accessCoins txid).1 = table txid
      ∧ (stack.accessCoins txid).2.Holds table := by
  obtain ⟨found, kept⟩ := getCoins_spec (Pqcoin.Holds.tail holds) txid
  obtain ⟨answer, after⟩ := fetchCoins_spec holds found kept
  refine ⟨?_, after⟩
  rw [CacheStack.accessCoins, answer]
  exact holds.seen txid

theorem Holds.flush (layer : Nat)
    : ∃ after, stack.flush layer = .ok after
      ∧ after.Holds table
      ∧ after.below.length = stack.below.length
      ∧ ((∀ cacheCoins ∈ (stack.cacheCoins :: stack.below).take layer, cacheCoins = ∅)
        → ∀ cacheCoins ∈ (after.cacheCoins :: after.below).take (layer + 1), cacheCoins = ∅) := by
  obtain ⟨base', caches', flushed, kept, length, empties⟩ := Pqcoin.Holds.flushLayer holds layer
  rw [flush_eq] at flushed
  obtain ⟨after, result, ⟨⟩⟩ := Checks.map_ok.mp flushed
  exact ⟨after, result, kept, by simpa using length, empties⟩

theorem Holds.uncache (layer txid)
    : (stack.uncache layer txid).Holds table := by
  have kept := Pqcoin.Holds.uncache holds layer txid
  cases layer with
  | zero | succ layer => exact kept

theorem Holds.push : stack.push.Holds table := Pqcoin.Holds.empty holds

/-- Flushing the caches one after the other empties them, by induction on their number. -/
theorem Holds.flushFirst (layers)
    : ∃ after,
        (List.range layers).foldlM (fun stack layer => CacheStack.flush layer stack) stack
          = .ok after
        ∧ after.Holds table
        ∧ after.below.length = stack.below.length
        ∧ ∀ cacheCoins ∈ (after.cacheCoins :: after.below).take layers, cacheCoins = ∅ := by
  induction layers with
  | zero => exact ⟨stack, rfl, holds, rfl, by simp⟩
  | succ layers ih =>
    obtain ⟨middle, run, held, length, empties⟩ := ih
    obtain ⟨after, flushed, kept, same, more⟩ := held.flush layers
    refine ⟨after, ?_, kept, same.trans length, more empties⟩
    rw [range_succ, foldlM_append, run]
    simp only [foldlM_cons, foldlM_nil]
    change (CacheStack.flush layers middle >>= pure) = _
    rw [flushed]
    rfl

theorem Holds.flushAll
    : ∃ after, stack.flushAll = .ok after
      ∧ ∀ txid, shown isPruned (after.base txid) = table txid := by
  obtain ⟨after, run, kept, length, empties⟩ := holds.flushFirst (stack.below.length + 1)
  refine ⟨after, run, Pqcoin.Holds.atBase kept ?_⟩
  rwa [take_of_length_le (by simp [length])] at empties

end CacheStack

end Pqcoin
