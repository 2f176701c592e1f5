import Mathlib.Data.Finset.Max
import Mathlib.Data.Int.Interval
import Mathlib.Tactic.Tauto

/-! The key pool of the wallet: keys written ahead under indexes, reserved from the smallest index
on, then kept or returned.
-/

namespace Pqcoin

open List

variable {K : Type}

-- State

/-- A `CReserveKey` that holds a key. -/
structure Reservation (K : Type) where
  nIndex : Int
  vchPubKey : K

/-- The wallet as far as its key pool is concerned: the `pool` records of the wallet file, the keys
it holds, and beside them the reservations that are outstanding and the keys that were kept. The
indexes are taken not to leave `int64_t`.
-/
structure KeyPool (K : Type) where
  setKeyPool : Finset Int
  pool : Int → Option K
  keys : List K
  fLocked : Bool
  reserved : List (Reservation K)
  kept : List K

/-- How the calls throw; the counter of `NewKeyPool` is an `int`. -/
inductive KeyPoolError where
  | readFailed
  | unknownKey
  | counterOverflow
  deriving DecidableEq, Repr

/-- What the calls read beside the wallet: the `-keypool` argument, and the key that
`GenerateNewKey` makes for a wallet with these keys.
-/
structure KeyPoolContext (K : Type) where
  keypoolArg : Int
  generateNewKey : List K → K

namespace KeyPool

variable (ctx : KeyPoolContext K)

-- The calls

def writeNewKey (nIndex : Int) (wallet : KeyPool K) : KeyPool K :=
  { wallet with
    setKeyPool := insert nIndex wallet.setKeyPool
    pool := Function.update wallet.pool nIndex (some (ctx.generateNewKey wallet.keys))
    keys := ctx.generateNewKey wallet.keys :: wallet.keys }

def nEnd (wallet : KeyPool K) : Int :=
  if filled : wallet.setKeyPool.Nonempty then wallet.setKeyPool.max' filled + 1 else 1

/-- The target of a refill, an `unsigned int`. -/
def nTargetSize (kpSize : BitVec 32) : BitVec 32 :=
  if 0 < kpSize then kpSize else BitVec.ofInt 32 (max ctx.keypoolArg 0)

/-- The `while` of `TopUpKeyPool`; each round adds an index, so `bound` rounds are enough. -/
def topUpLoop (bound : Nat) : Nat → KeyPool K → KeyPool K
  | 0, wallet => wallet
  | rounds + 1, wallet =>
    if wallet.setKeyPool.card < bound then
      topUpLoop bound rounds (wallet.writeNewKey ctx wallet.nEnd)
    else wallet

/-- How many indexes the pool has to hold after a refill: `nTargetSize + 1`, in 32 bits. -/
def topUpBound (kpSize : BitVec 32) : Nat := (nTargetSize ctx kpSize + 1).toNat

def topUpKeyPool (kpSize : BitVec 32) (wallet : KeyPool K) : Bool × KeyPool K :=
  if wallet.fLocked then (false, wallet)
  else (true, topUpLoop ctx (topUpBound ctx kpSize) (topUpBound ctx kpSize) wallet)

/-- The first half of `NewKeyPool`: the pool and its records are erased. -/
def erasePool (wallet : KeyPool K) : KeyPool K :=
  { wallet with
    setKeyPool := ∅
    pool := fun nIndex => if nIndex ∈ wallet.setKeyPool then none else wallet.pool nIndex }

/-- The loop of `NewKeyPool`: the indexes from `i + 1` on, `count` of them. -/
def writeKeys (i : Int) : Nat → KeyPool K → KeyPool K
  | 0, wallet => wallet
  | count + 1, wallet => writeKeys (i + 1) count (wallet.writeNewKey ctx (i + 1))

def newKeyPool (wallet : KeyPool K) : Except KeyPoolError (Bool × KeyPool K) :=
  if wallet.fLocked then .ok (false, wallet.erasePool)
  else
    let nKeys := max ctx.keypoolArg 0
    -- the loop runs an int up to nKeys
    if 2 ^ 31 ≤ nKeys then .error .counterOverflow
    else .ok (true, writeKeys ctx 0 nKeys.toNat wallet.erasePool)

/-- `ReserveKeyFromKeyPool`; no reservation is `nIndex == -1`. -/
def reserveKeyFromKeyPool [DecidableEq K] (wallet : KeyPool K)
    : Except KeyPoolError (Option (Reservation K) × KeyPool K) :=
  let refilled := if wallet.fLocked then wallet else (wallet.topUpKeyPool ctx 0).2
  if filled : refilled.setKeyPool.Nonempty then
    let nIndex := refilled.setKeyPool.min' filled
    match refilled.pool nIndex with
    | none => .error .readFailed
    | some vchPubKey =>
      if vchPubKey ∈ refilled.keys then
        .ok (some ⟨nIndex, vchPubKey⟩,
          { refilled with setKeyPool := refilled.setKeyPool.erase nIndex })
      else .error .unknownKey
  else .ok (none, refilled)

def keepKey (nIndex : Int) (wallet : KeyPool K) : KeyPool K :=
  { wallet with pool := Function.update wallet.pool nIndex none }

def returnKey (nIndex : Int) (wallet : KeyPool K) : KeyPool K :=
  { wallet with setKeyPool := insert nIndex wallet.setKeyPool }

def hold (reserved : List (Reservation K)) (kept : List K) (wallet : KeyPool K) : KeyPool K :=
  { wallet with reserved := reserved, kept := kept }

/-- `GetKeyFromPool`: a reservation that is kept at once, and a new key when the pool is empty. -/
def getKeyFromPool [DecidableEq K] (wallet : KeyPool K)
    : Except KeyPoolError (Option K × KeyPool K) :=
  match wallet.reserveKeyFromKeyPool ctx with
  | .error failure => .error failure
  | .ok (some entry, after) =>
    .ok (some entry.vchPubKey,
      (after.keepKey entry.nIndex).hold after.reserved (entry.vchPubKey :: after.kept))
  | .ok (none, after) =>
    if after.fLocked then .ok (none, after)
    else
      let result := ctx.generateNewKey after.keys
      .ok (some result, { after with keys := result :: after.keys, kept := result :: after.kept })

end KeyPool

-- Runs

/-- The calls made on the pool. A `CReserveKey` is the slot that its reservation has among those
outstanding; keeping or returning one without a reservation does nothing.
-/
inductive KeyPoolCall where
  | topUpKeyPool (kpSize : BitVec 32)
  | newKeyPool
  | getReservedKey
  | keepKey (slot : Nat)
  | returnKey (slot : Nat)
  | getKeyFromPool
  | lock
  | unlock

namespace KeyPool

variable (ctx : KeyPoolContext K)

def perform [DecidableEq K] (wallet : KeyPool K) : KeyPoolCall → Except KeyPoolError (KeyPool K)
  | .topUpKeyPool kpSize => .ok (wallet.topUpKeyPool ctx kpSize).2
  | .newKeyPool => (wallet.newKeyPool ctx).map Prod.snd
  | .getReservedKey =>
    match wallet.reserveKeyFromKeyPool ctx with
    | .error failure => .error failure
    | .ok (none, after) => .ok after
    | .ok (some entry, after) => .ok (after.hold (entry :: after.reserved) after.kept)
  | .keepKey slot =>
    match wallet.reserved[slot]? with
    | none => .ok wallet
    | some entry =>
      .ok ((wallet.keepKey entry.nIndex).hold (wallet.reserved.eraseIdx slot)
        (entry.vchPubKey :: wallet.kept))
  | .returnKey slot =>
    match wallet.reserved[slot]? with
    | none => .ok wallet
    | some entry =>
      .ok ((wallet.returnKey entry.nIndex).hold (wallet.reserved.eraseIdx slot) wallet.kept)
  | .getKeyFromPool => (wallet.getKeyFromPool ctx).map Prod.snd
  | .lock => .ok { wallet with fLocked := true }
  | .unlock => .ok { wallet with fLocked := false }

def performAll [DecidableEq K] : List KeyPoolCall → KeyPool K → Except KeyPoolError (KeyPool K)
  | [], wallet => .ok wallet
  | call :: rest, wallet =>
    match wallet.perform ctx call with
    | .error failure => .error failure
    | .ok after => performAll rest after

def Throughout [DecidableEq K] (condition : KeyPoolCall → KeyPool K → Prop)
    : List KeyPoolCall → KeyPool K → Prop
  | [], _ => True
  | call :: rest, wallet =>
    condition call wallet
    ∧ match wallet.perform ctx call with
      | .error _ => True
      | .ok after => Throughout condition rest after

-- What the pool promises

structure Sound (wallet : KeyPool K) : Prop where
  recorded : ∀ nIndex ∈ wallet.setKeyPool, ∃ key ∈ wallet.keys, wallet.pool nIndex = some key
  handedOnce : (wallet.reserved.map Reservation.vchPubKey ++ wallet.kept).Nodup

/-- A wallet after it was loaded: the pool is what the file has records of, with keys of its own,
and no key was handed out yet.
-/
structure Loaded (wallet : KeyPool K) : Prop where
  recorded : ∀ nIndex ∈ wallet.setKeyPool, ∃ key ∈ wallet.keys, wallet.pool nIndex = some key
  distinct : ∀ first ∈ wallet.setKeyPool, ∀ second ∈ wallet.setKeyPool,
    wallet.pool first = wallet.pool second → first = second
  unreserved : wallet.reserved = []
  unkept : wallet.kept = []

/-- A refill of an unlocked wallet writes no index of an outstanding reservation. -/
def RefillClear (kpSize : BitVec 32) (wallet : KeyPool K) : Prop :=
  wallet.fLocked = false → ∀ entry ∈ wallet.reserved,
    entry.nIndex < wallet.nEnd
    ∨ wallet.nEnd + (topUpBound ctx kpSize - wallet.setKeyPool.card : Nat)
        ≤ entry.nIndex

/-- The call writes no index of an outstanding reservation, and a renewal of an unlocked wallet has
a pool size that its counter can reach.
-/
def ClearOfReserved (call : KeyPoolCall) (wallet : KeyPool K) : Prop :=
  match call with
  | .topUpKeyPool kpSize => wallet.RefillClear ctx kpSize
  | .getReservedKey | .getKeyFromPool => wallet.RefillClear ctx 0
  | .newKeyPool => wallet.fLocked = false →
      ctx.keypoolArg < 2 ^ 31
      ∧ ∀ entry ∈ wallet.reserved,
          entry.nIndex < 1 ∨ ctx.keypoolArg < entry.nIndex
  | .keepKey _ | .returnKey _ | .lock | .unlock => True

instance (kpSize : BitVec 32) (wallet : KeyPool K)
    : Decidable (wallet.RefillClear ctx kpSize) :=
  inferInstanceAs (Decidable (_ → _))

instance (call : KeyPoolCall) (wallet : KeyPool K)
    : Decidable (wallet.ClearOfReserved ctx call) :=
  match call with
  | .topUpKeyPool kpSize => inferInstanceAs (Decidable (wallet.RefillClear ctx kpSize))
  | .getReservedKey | .getKeyFromPool => inferInstanceAs (Decidable (wallet.RefillClear ctx 0))
  | .newKeyPool => inferInstanceAs (Decidable (_ → _ ∧ _))
  | .keepKey _ | .returnKey _ | .lock | .unlock => inferInstanceAs (Decidable True)

instance decidableThroughout [DecidableEq K] (condition : KeyPoolCall → KeyPool K → Prop)
    [∀ call wallet, Decidable (condition call wallet)]
    : ∀ calls wallet, Decidable (Throughout ctx condition calls wallet)
  | [], _ => inferInstanceAs (Decidable True)
  | call :: rest, wallet =>
    have : Decidable (match wallet.perform ctx call with
        | .error _ => True
        | .ok after => Throughout ctx condition rest after) :=
      match wallet.perform ctx call with
      | .error _ => inferInstanceAs (Decidable True)
      | .ok after => decidableThroughout condition rest after
    inferInstanceAs (Decidable (_ ∧ _))

-- The invariant

def Live (wallet : KeyPool K) (nIndex : Int) : Prop :=
  nIndex ∈ wallet.setKeyPool ∨ nIndex ∈ wallet.reserved.map Reservation.nIndex

/-- The invariant behind `Sound`: reservations keep their records and are apart from the pool, and
the records of both have keys of their own, none of them kept.
-/
structure Intact (wallet : KeyPool K) : Prop where
  recorded : ∀ nIndex ∈ wallet.setKeyPool, ∃ key ∈ wallet.keys, wallet.pool nIndex = some key
  reserved : ∀ entry ∈ wallet.reserved,
    entry.vchPubKey ∈ wallet.keys
    ∧ wallet.pool entry.nIndex = some entry.vchPubKey
  held : ∀ key ∈ wallet.kept, key ∈ wallet.keys
  apart : ∀ entry ∈ wallet.reserved, entry.nIndex ∉ wallet.setKeyPool
  reservedOnce : (wallet.reserved.map Reservation.nIndex).Nodup
  keptOnce : wallet.kept.Nodup
  distinct : ∀ first second, wallet.Live first → wallet.Live second →
    wallet.pool first = wallet.pool second → first = second
  unkept : ∀ nIndex, wallet.Live nIndex → ∀ key ∈ wallet.kept, wallet.pool nIndex ≠ some key

variable {ctx} {wallet : KeyPool K} (fresh : ∀ keys, ctx.generateNewKey keys ∉ keys)

theorem Loaded.intact (loaded : wallet.Loaded) : wallet.Intact := by
  have live : ∀ nIndex, wallet.Live nIndex → nIndex ∈ wallet.setKeyPool := by
    simp [Live, loaded.unreserved]
  exact {
    recorded := loaded.recorded
    reserved := by simp [loaded.unreserved]
    held := by simp [loaded.unkept]
    apart := by simp [loaded.unreserved]
    reservedOnce := by simp [loaded.unreserved]
    keptOnce := by simp [loaded.unkept]
    distinct := fun first second firstLive secondLive =>
      loaded.distinct first (live first firstLive) second (live second secondLive)
    unkept := by simp [loaded.unkept]
  }

-- Indexes

theorem lt_nEnd {nIndex} (listed : nIndex ∈ wallet.setKeyPool) : nIndex < wallet.nEnd := by
  rw [nEnd, dif_pos ⟨nIndex, listed⟩]
  have bound := wallet.setKeyPool.le_max' nIndex listed
  omega

theorem nEnd_writeNewKey : (wallet.writeNewKey ctx wallet.nEnd).nEnd = wallet.nEnd + 1 := by
  rw [nEnd, dif_pos ⟨wallet.nEnd, Finset.mem_insert_self ..⟩, add_left_inj]
  refine le_antisymm (Finset.max'_le _ _ _ fun nIndex listed => ?_)
    (Finset.le_max' _ _ (Finset.mem_insert_self ..))
  rcases Finset.mem_insert.mp listed with rfl | listed
  · exact le_rfl
  · exact (lt_nEnd listed).le

theorem card_writeNewKey
    : (wallet.writeNewKey ctx wallet.nEnd).setKeyPool.card = wallet.setKeyPool.card + 1 :=
  Finset.card_insert_of_notMem fun listed => lt_irrefl _ (lt_nEnd listed)

namespace Intact

variable (intact : wallet.Intact)

include intact

theorem live_recorded {nIndex} (live : wallet.Live nIndex)
    : ∃ key ∈ wallet.keys, wallet.pool nIndex = some key := by
  rcases live with listed | taken
  · exact intact.recorded nIndex listed
  obtain ⟨entry, mem, rfl⟩ := mem_map.mp taken
  exact ⟨entry.vchPubKey, intact.reserved entry mem⟩

theorem sound : wallet.Sound := by
  refine ⟨intact.recorded, nodup_append.mpr ⟨?_, intact.keptOnce, ?_⟩⟩
  · refine Nodup.map_on ?_ (Nodup.of_map _ intact.reservedOnce)
    intro first firstMember second secondMember same
    refine inj_on_of_nodup_map intact.reservedOnce firstMember secondMember ?_
    refine intact.distinct _ _ (.inr (mem_map_of_mem firstMember))
      (.inr (mem_map_of_mem secondMember)) ?_
    rw [(intact.reserved first firstMember).2, (intact.reserved second secondMember).2, same]
  · intro handed handedMember key keyMember same
    obtain ⟨entry, mem, rfl⟩ := mem_map.mp handedMember
    refine intact.unkept _ (.inr (mem_map_of_mem mem)) key keyMember ?_
    rw [(intact.reserved entry mem).2, same]

-- Writing

include fresh in
theorem writeNewKey {nIndex} (clear : nIndex ∉ wallet.reserved.map Reservation.nIndex)
    : (wallet.writeNewKey ctx nIndex).Intact := by
  have live : ∀ other, (wallet.writeNewKey ctx nIndex).Live other →
      other ≠ nIndex → wallet.Live other := by
    intro other found different
    simpa [Live, KeyPool.writeNewKey, different] using found
  have kept : ∀ other, other ≠ nIndex →
      (wallet.writeNewKey ctx nIndex).pool other = wallet.pool other :=
    fun other different => Function.update_of_ne different _ _
  have written : (wallet.writeNewKey ctx nIndex).pool nIndex
      = some (ctx.generateNewKey wallet.keys) := Function.update_self ..
  -- the records that were live before have older keys than the one written
  have older : ∀ other, (wallet.writeNewKey ctx nIndex).Live other → other ≠ nIndex →
      wallet.pool other ≠ some (ctx.generateNewKey wallet.keys) := by
    intro other found different same
    obtain ⟨key, mem, record⟩ := intact.live_recorded (live other found different)
    rw [record, Option.some.injEq] at same
    exact fresh wallet.keys (same ▸ mem)
  refine ⟨?_, ?_, ?_, ?_, intact.reservedOnce, intact.keptOnce, ?_, ?_⟩
  · intro other listed
    by_cases same : other = nIndex
    · exact ⟨_, mem_cons_self, same ▸ written⟩
    obtain ⟨key, mem, record⟩ :=
      intact.recorded other (Finset.mem_of_mem_insert_of_ne listed same)
    exact ⟨key, mem_cons_of_mem _ mem, (kept other same).trans record⟩
  · intro entry mem
    have different : entry.nIndex ≠ nIndex := fun same => clear (same ▸ mem_map_of_mem mem)
    obtain ⟨held, record⟩ := intact.reserved entry mem
    exact ⟨mem_cons_of_mem _ held, (kept _ different).trans record⟩
  · exact fun key mem => mem_cons_of_mem _ (intact.held key mem)
  · intro entry mem listed
    have different : entry.nIndex ≠ nIndex := fun same => clear (same ▸ mem_map_of_mem mem)
    exact intact.apart entry mem (Finset.mem_of_mem_insert_of_ne listed different)
  · intro first second firstLive secondLive same
    by_cases atFirst : first = nIndex <;> by_cases atSecond : second = nIndex
    · exact atFirst.trans atSecond.symm
    · rw [atFirst, written, kept second atSecond] at same
      exact absurd same.symm (older second secondLive atSecond)
    · rw [atSecond, written, kept first atFirst] at same
      exact absurd same (older first firstLive atFirst)
    · rw [kept first atFirst, kept second atSecond] at same
      exact intact.distinct first second (live first firstLive atFirst)
        (live second secondLive atSecond) same
  · intro other found key mem
    by_cases same : other = nIndex
    · rw [same, written, ne_eq, Option.some.injEq]
      exact fun new => fresh wallet.keys (new ▸ intact.held key mem)
    · rw [kept other same]
      exact intact.unkept other (live other found same) key mem

/-- Fewer live indexes with the same records: the keys of those that are no longer live may be
kept.
-/
theorem narrow {after : KeyPool K} (keys : after.keys = wallet.keys)
    (live : ∀ nIndex, after.Live nIndex →
      wallet.Live nIndex ∧ after.pool nIndex = wallet.pool nIndex)
    (reserved : ∀ entry ∈ after.reserved,
      wallet.pool entry.nIndex = some entry.vchPubKey
      ∧ entry.nIndex ∉ after.setKeyPool)
    (reservedOnce : (after.reserved.map Reservation.nIndex).Nodup)
    (kept : ∀ key ∈ after.kept, key ∈ wallet.kept
      ∨ ∃ nIndex, wallet.Live nIndex ∧ ¬ after.Live nIndex ∧ wallet.pool nIndex = some key)
    (keptOnce : after.kept.Nodup)
    : after.Intact := by
  have known {nIndex key} (found : wallet.Live nIndex) (record : wallet.pool nIndex = some key)
      : key ∈ after.keys := by
    obtain ⟨other, mem, same⟩ := intact.live_recorded found
    cases record.symm.trans same
    rwa [keys]
  refine ⟨?_, ?_, ?_, fun entry mem => (reserved entry mem).2, reservedOnce,
    keptOnce, ?_, ?_⟩
  · intro nIndex listed
    obtain ⟨before, same⟩ := live nIndex (.inl listed)
    rw [keys, same]
    exact intact.live_recorded before
  · intro entry mem
    obtain ⟨before, same⟩ := live _ (.inr (mem_map_of_mem mem))
    have record := (reserved entry mem).1
    exact ⟨known before record, same.trans record⟩
  · intro key mem
    rcases kept key mem with before | ⟨nIndex, before, -, record⟩
    · exact keys ▸ intact.held key before
    · exact known before record
  · intro first second firstLive secondLive same
    rw [(live first firstLive).2, (live second secondLive).2] at same
    exact intact.distinct first second (live first firstLive).1 (live second secondLive).1 same
  · intro nIndex found key mem
    obtain ⟨before, same⟩ := live nIndex found
    rw [same]
    rcases kept key mem with held | ⟨other, otherLive, gone, record⟩
    · exact intact.unkept nIndex before key held
    · intro taken
      cases intact.distinct nIndex other before otherLive (taken.trans record.symm)
      exact gone found

theorem erasePool : wallet.erasePool.Intact := by
  refine intact.narrow rfl (fun nIndex found => ?_)
    (fun entry mem =>
      ⟨(intact.reserved entry mem).2, Finset.notMem_empty _⟩)
    intact.reservedOnce (fun _ => .inl) intact.keptOnce
  have taken : nIndex ∈ wallet.reserved.map Reservation.nIndex := by
    simpa [Live, KeyPool.erasePool] using found
  obtain ⟨entry, mem, rfl⟩ := mem_map.mp taken
  exact ⟨.inr taken, if_neg (intact.apart entry mem)⟩

include fresh in
/-- The loop of a renewal, by induction on the keys still to write. -/
theorem writeKeys (count : Nat) {i}
    (clear : ∀ entry ∈ wallet.reserved,
      entry.nIndex < i + 1 ∨ i + count < entry.nIndex)
    : (writeKeys ctx i count wallet).Intact := by
  induction count generalizing wallet i with
  | zero => exact intact
  | succ count ih =>
    refine ih (intact.writeNewKey fresh ?_) ?_
    · intro taken
      obtain ⟨entry, mem, same⟩ := mem_map.mp taken
      have bounds := clear entry mem
      omega
    · intro entry mem
      have bounds := clear entry mem
      omega

include fresh

/-- The indexes a refill writes follow on one another, so a reservation outside of them stays so. -/
theorem topUpLoop {bound} (rounds) (clear : ∀ entry ∈ wallet.reserved,
      entry.nIndex < wallet.nEnd
      ∨ wallet.nEnd + (bound - wallet.setKeyPool.card : Nat) ≤ entry.nIndex)
    : (topUpLoop ctx bound rounds wallet).Intact := by
  induction rounds generalizing wallet with
  | zero => exact intact
  | succ rounds ih =>
    rw [KeyPool.topUpLoop]
    split
    · rename_i short
      refine ih (intact.writeNewKey fresh ?_) ?_
      · intro taken
        obtain ⟨entry, mem, same⟩ := mem_map.mp taken
        have bounds := clear entry mem
        omega
      · intro entry mem
        rw [nEnd_writeNewKey, card_writeNewKey]
        have bounds := clear entry mem
        omega
    · exact intact

theorem topUpKeyPool {kpSize} (clear : wallet.RefillClear ctx kpSize)
    : (wallet.topUpKeyPool ctx kpSize).2.Intact := by
  rw [KeyPool.topUpKeyPool]
  split
  · exact intact
  rename_i unlocked
  exact intact.topUpLoop fresh _ (clear (by simpa using unlocked))

omit fresh

-- Reserving, keeping and returning

theorem reserve {nIndex vchPubKey}
    (listed : nIndex ∈ wallet.setKeyPool) (record : wallet.pool nIndex = some vchPubKey)
    : (({ wallet with setKeyPool := wallet.setKeyPool.erase nIndex } : KeyPool K).hold
        (⟨nIndex, vchPubKey⟩ :: wallet.reserved) wallet.kept).Intact := by
  refine intact.narrow rfl (fun other found => ⟨?_, rfl⟩) (fun entry mem => ?_) ?_
    (fun _ => .inl) intact.keptOnce
  · simp only [Live, hold, Finset.mem_erase, map_cons, mem_cons] at found
    rcases found with inPool | rfl | taken
    · exact .inl inPool.2
    · exact .inl listed
    · exact .inr taken
  · rcases mem_cons.mp mem with rfl | mem
    · exact ⟨record, Finset.notMem_erase nIndex wallet.setKeyPool⟩
    · exact ⟨(intact.reserved entry mem).2, fun other =>
        intact.apart entry mem (Finset.mem_of_mem_erase other)⟩
  · refine nodup_cons.mpr ⟨fun taken => ?_, intact.reservedOnce⟩
    obtain ⟨entry, mem, same⟩ := mem_map.mp taken
    exact intact.apart entry mem (same ▸ listed)

/-- The reservations beside one that is ended. -/
theorem withdraw {entry rest} (listed : wallet.reserved.Perm (entry :: rest))
    : entry ∈ wallet.reserved ∧ (∀ other ∈ rest, other ∈ wallet.reserved)
      ∧ entry.nIndex ∉ rest.map Reservation.nIndex
      ∧ (rest.map Reservation.nIndex).Nodup := by
  have once := (listed.map Reservation.nIndex).nodup_iff.mp intact.reservedOnce
  rw [map_cons, nodup_cons] at once
  exact ⟨listed.mem_iff.mpr mem_cons_self,
    fun other inRest => listed.mem_iff.mpr (mem_cons_of_mem _ inRest), once⟩

/-- A reservation is kept: its record goes, and its key is among those handed out for good. -/
theorem keep {entry rest} (listed : wallet.reserved.Perm (entry :: rest))
    : ((wallet.keepKey entry.nIndex).hold rest
        (entry.vchPubKey :: wallet.kept)).Intact := by
  obtain ⟨mem, remaining, gone, restOnce⟩ := intact.withdraw listed
  have record := (intact.reserved entry mem).2
  have taken : wallet.Live entry.nIndex := .inr (mem_map_of_mem mem)
  have apart := intact.apart entry mem
  refine intact.narrow rfl (fun nIndex found => ?_)
    (fun other inRest => ⟨(intact.reserved other (remaining other inRest)).2,
      intact.apart other (remaining other inRest)⟩)
    restOnce (fun key handed => ?_)
    (nodup_cons.mpr ⟨fun handed => intact.unkept _ taken _ handed record, intact.keptOnce⟩)
  · have different : nIndex ≠ entry.nIndex := by
      rintro rfl
      exact found.elim apart gone
    refine ⟨found.imp_right fun held => ?_, Function.update_of_ne different _ _⟩
    obtain ⟨other, inRest, rfl⟩ := mem_map.mp held
    exact mem_map_of_mem (remaining other inRest)
  · rcases mem_cons.mp handed with rfl | handed
    · exact .inr ⟨_, taken, fun found => found.elim apart gone, record⟩
    · exact .inl handed

theorem giveBack {entry rest} (listed : wallet.reserved.Perm (entry :: rest))
    : ((wallet.returnKey entry.nIndex).hold rest wallet.kept).Intact := by
  obtain ⟨mem, remaining, gone, restOnce⟩ := intact.withdraw listed
  refine intact.narrow rfl (fun nIndex found => ⟨?_, rfl⟩)
    (fun other inRest => ⟨(intact.reserved other (remaining other inRest)).2, fun inPool => ?_⟩)
    restOnce (fun _ => .inl) intact.keptOnce
  · rcases found with inPool | taken
    · rcases Finset.mem_insert.mp inPool with rfl | inPool
      · exact .inr (mem_map_of_mem mem)
      · exact .inl inPool
    · obtain ⟨other, inRest, rfl⟩ := mem_map.mp taken
      exact .inr (mem_map_of_mem (remaining other inRest))
  · rcases Finset.mem_insert.mp inPool with same | inPool
    · exact gone (same ▸ mem_map_of_mem inRest)
    · exact intact.apart other (remaining other inRest) inPool

theorem setLocked (fLocked) : ({ wallet with fLocked := fLocked } : KeyPool K).Intact :=
  ⟨intact.recorded, intact.reserved, intact.held, intact.apart, intact.reservedOnce,
    intact.keptOnce, intact.distinct, intact.unkept⟩

include fresh

/-- Reserving does not throw: it finds the pool empty, or hands out the key of an index. -/
theorem reserveKeyFromKeyPool [DecidableEq K] (clear : wallet.RefillClear ctx 0)
    : ∃ entry after, wallet.reserveKeyFromKeyPool ctx = .ok (entry, after)
      ∧ (after.hold (entry.toList ++ after.reserved) after.kept).Intact := by
  have refilled : (if wallet.fLocked then wallet
      else (wallet.topUpKeyPool ctx 0).2).Intact := by
    split
    · exact intact
    · exact intact.topUpKeyPool fresh clear
  rw [KeyPool.reserveKeyFromKeyPool]
  revert refilled
  generalize (if wallet.fLocked then wallet else (wallet.topUpKeyPool ctx 0).2) = pool
  intro refilled
  dsimp only
  split
  · rename_i filled
    have listed := pool.setKeyPool.min'_mem filled
    obtain ⟨key, held, record⟩ := refilled.recorded _ listed
    simp only [record, if_pos held]
    exact ⟨_, _, rfl, refilled.reserve listed record⟩
  · exact ⟨none, pool, rfl, refilled⟩

theorem keepNew
    : ({ wallet with
        keys := ctx.generateNewKey wallet.keys :: wallet.keys
        kept := ctx.generateNewKey wallet.keys :: wallet.kept } : KeyPool K).Intact := by
  refine ⟨?_, ?_, ?_, intact.apart, intact.reservedOnce, ?_, intact.distinct, ?_⟩
  · intro nIndex inPool
    obtain ⟨key, held, record⟩ := intact.recorded nIndex inPool
    exact ⟨key, mem_cons_of_mem _ held, record⟩
  · intro entry mem
    obtain ⟨held, record⟩ := intact.reserved entry mem
    exact ⟨mem_cons_of_mem _ held, record⟩
  · intro key handed
    rcases mem_cons.mp handed with rfl | handed
    · exact mem_cons_self
    · exact mem_cons_of_mem _ (intact.held key handed)
  · exact nodup_cons.mpr ⟨fun handed => fresh _ (intact.held _ handed), intact.keptOnce⟩
  · intro nIndex found key handed record
    rcases mem_cons.mp handed with rfl | handed
    · obtain ⟨other, held, recorded⟩ := intact.live_recorded found
      exact fresh wallet.keys (Option.some.inj (recorded.symm.trans record) ▸ held)
    · exact intact.unkept nIndex found key handed record

-- Steps and runs

/-- A call that writes no index of an outstanding reservation returns, and keeps the invariant. -/
theorem perform [DecidableEq K] {call} (clear : wallet.ClearOfReserved ctx call)
    : ∃ after, wallet.perform ctx call = .ok after ∧ after.Intact := by
  cases call with
  | topUpKeyPool kpSize => exact ⟨_, rfl, intact.topUpKeyPool fresh clear⟩
  | newKeyPool =>
    rw [KeyPool.perform, newKeyPool]
    split
    · exact ⟨_, rfl, intact.erasePool⟩
    rename_i unlocked
    obtain ⟨reachable, apart⟩ := clear (by simpa using unlocked)
    rw [if_neg (by omega)]
    refine ⟨_, rfl, intact.erasePool.writeKeys fresh _ fun entry mem => ?_⟩
    have bounds := apart entry mem
    omega
  | getReservedKey =>
    obtain ⟨entry, after, result, kept⟩ := intact.reserveKeyFromKeyPool fresh clear
    rw [KeyPool.perform, result]
    cases entry with
    | none => exact ⟨after, rfl, kept⟩
    | some entry => exact ⟨_, rfl, kept⟩
  | keepKey slot =>
    rw [KeyPool.perform]
    split
    · exact ⟨wallet, rfl, intact⟩
    rename_i entry found
    obtain ⟨bound, rfl⟩ := List.getElem?_eq_some_iff.mp found
    exact ⟨_, rfl, intact.keep (getElem_cons_eraseIdx_perm bound).symm⟩
  | returnKey slot =>
    rw [KeyPool.perform]
    split
    · exact ⟨wallet, rfl, intact⟩
    rename_i entry found
    obtain ⟨bound, rfl⟩ := List.getElem?_eq_some_iff.mp found
    exact ⟨_, rfl, intact.giveBack (getElem_cons_eraseIdx_perm bound).symm⟩
  | getKeyFromPool =>
    obtain ⟨entry, after, result, kept⟩ := intact.reserveKeyFromKeyPool fresh clear
    rw [KeyPool.perform, getKeyFromPool, result]
    cases entry with
    | none =>
      dsimp only
      split
      · exact ⟨after, rfl, kept⟩
      · exact ⟨_, rfl, kept.keepNew fresh⟩
    | some entry => exact ⟨_, rfl, kept.keep .rfl⟩
  | lock => exact ⟨_, rfl, intact.setLocked true⟩
  | unlock => exact ⟨_, rfl, intact.setLocked false⟩

theorem performAll [DecidableEq K] {calls}
    (clear : Throughout ctx (fun call wallet => wallet.ClearOfReserved ctx call) calls wallet)
    : ∃ after, performAll ctx calls wallet = .ok after ∧ after.Intact := by
  induction calls generalizing wallet with
  | nil => exact ⟨wallet, rfl, intact⟩
  | cons call rest ih =>
    obtain ⟨next, step, kept⟩ := intact.perform fresh clear.1
    obtain ⟨-, later⟩ := clear
    rw [step] at later
    obtain ⟨after, run, sound⟩ := ih kept later
    exact ⟨after, by rw [KeyPool.performAll, step]; exact run, sound⟩

end Intact

/-- From a loaded wallet, a run whose refills and renewals write no index of an outstanding
reservation returns, and leaves the pool sound.
-/
theorem keyPool_sound_of_clear [DecidableEq K]
    (fresh : ∀ keys, ctx.generateNewKey keys ∉ keys) (loaded : wallet.Loaded)
    {calls : List KeyPoolCall}
    (clear : Throughout ctx (fun call wallet => wallet.ClearOfReserved ctx call) calls wallet)
    : ∃ after, performAll ctx calls wallet = .ok after ∧ after.Sound := by
  obtain ⟨after, run, intact⟩ := loaded.intact.performAll fresh clear
  exact ⟨after, run, intact.sound⟩

-- A renewal under an outstanding reservation

def blank : KeyPool Nat := ⟨∅, fun _ => none, [], false, [], []⟩

def numbered (keypoolArg : Int) : KeyPoolContext Nat where
  keypoolArg := keypoolArg
  generateNewKey := fun keys => keys.foldr max 0 + 1

theorem numbered_fresh (keypoolArg keys) : (numbered keypoolArg).generateNewKey keys ∉ keys := by
  have bounded : ∀ key ∈ keys, key ≤ keys.foldr max 0 := by
    induction keys with
    | nil => simp
    | cons first rest ih =>
      intro key mem
      rw [foldr_cons]
      rcases mem_cons.mp mem with rfl | mem
      · exact le_max_left ..
      · exact (ih key mem).trans (le_max_right ..)
  intro mem
  exact absurd (bounded _ mem) (Nat.not_succ_le_self _)

theorem blank_loaded : blank.Loaded := ⟨by simp [blank], by simp [blank], rfl, rfl⟩

/-- Of two reserved keys one is returned and one is kept. -/
theorem keyPool_sound_of_clear_twice
    : ∃ after, performAll (numbered 1)
        [.newKeyPool, .getReservedKey, .getReservedKey, .returnKey 0, .keepKey 0] blank = .ok after
      ∧ after.Sound := by
  exact keyPool_sound_of_clear (numbered_fresh 1) blank_loaded (by decide +kernel)

/-- The renewal writes the index of the reservation again. Keeping the reservation then erases the
record of an index in the pool, and returning it hands out the new key a second time.
-/
theorem renewal_overwrites_reserved
    : blank.Loaded ∧ (∀ keys, (numbered 1).generateNewKey keys ∉ keys)
      ∧ (performAll (numbered 1)
          [.newKeyPool, .getReservedKey, .newKeyPool, .keepKey 0, .getReservedKey] blank).map
          (fun _ => ()) = .error .readFailed
      ∧ (performAll (numbered 1)
          [.newKeyPool, .getReservedKey, .newKeyPool, .getReservedKey, .returnKey 1,
            .getReservedKey] blank).map
          (fun after => after.reserved.map Reservation.vchPubKey) = .ok [3, 3] := by
  refine ⟨blank_loaded, numbered_fresh 1, by decide +kernel, by decide +kernel⟩

end KeyPool

end Pqcoin
