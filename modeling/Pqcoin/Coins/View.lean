import Pqcoin.Coins.Coins
import Pqcoin.Lib.Tally
import Pqcoin.Validation.CheckBlock

/-! A coins view as block connection uses it: lookups, the sums over inputs and outputs, spending
and creating the coins of a transaction, and undoing it. The view is kept as the map that its
caches stand for.
-/

namespace Pqcoin

open Checks

/-- How connecting or disconnecting a block ends when it does not succeed. -/
inductive ConnectFailure where
  /-- The state records an invalid block, or an assertion fails. -/
  | failed (failure : Failure)
  /-- A null pointer is followed. -/
  | nullPointer
  /-- `AbortNode`. -/
  | aborted (strMessage : String)
  /-- `CTransaction::GetValueOut` throws. -/
  | valueOutOfRange
  /-- `ModifyNewCoins` finds coins of a transaction that is no coinbase, and throws. -/
  | preExistingCoins
  /-- The block subsidy is undefined. -/
  | undefinedSubsidy
  /-- `DisconnectBlock` returns an error. -/
  | undoFailed (strMessage : String)
  deriving DecidableEq

/-- `CCoinsViewCache`: its coins, and the block that they are the state after. -/
structure ViewCache where
  table : CoinsTable
  hashBlock : Uint256

-- Lookups

def unspentAt (table : CoinsTable) (out : OutPoint) : Option TxOut :=
  (coinsAt table out.hash).unspent out.n.toNat

def haveInputs (table : CoinsTable) (tx : Transaction) : Bool :=
  tx.isCoinBase || tx.vin.all (fun txin => (unspentAt table txin.prevout).isSome)

/-- `CCoinsViewCache::GetOutputFor`, which is only called after `HaveInputs`. -/
def getOutputFor (table : CoinsTable) (out : OutPoint) : TxOut :=
  (unspentAt table out).getD TxOut.null

def getValueIn (table : CoinsTable) (tx : Transaction) : Tally 64 :=
  if tx.isCoinBase then Tally.of 0
  else (Tally.of 0).addAll (tx.vin.map (fun txin => (getOutputFor table txin.prevout).nValue))

def addOutputs (nValueOut : Tally 64) : List TxOut → Except ConnectFailure (Tally 64)
  | [] => .ok nValueOut
  | txout :: rest => do
      let nValueOut := nValueOut.add (Tally.of txout.nValue)
      require (MoneyRange txout.nValue ∧ MoneyRange nValueOut.amount) .valueOutOfRange
      addOutputs nValueOut rest

def Transaction.getValueOut (tx : Transaction) : Except ConnectFailure (Tally 64) :=
  addOutputs (Tally.of 0) tx.vout

/-- `CTxInUndo`; the metadata has its defaults unless the last output was spent. -/
structure TxInUndo where
  txout : TxOut
  fCoinBase : Bool := false
  nHeight : Int := 0
  nVersion : BitVec 32 := 0
  deriving DecidableEq

/-- `CTxUndo`, the `vprevout` of a transaction. -/
abbrev TxUndo := List TxInUndo

abbrev BlockUndo := List TxUndo

/-- A round of the loop of `UpdateCoins`: mark an outpoint spent, and construct undo
information.
-/
def spendInput (table : CoinsTable) (prevout : OutPoint)
    : Except ConnectFailure (TxInUndo × CoinsTable) :=
  let coins := coinsAt table prevout.hash
  match coins.unspent prevout.n.toNat with
  | none => .error (.failed .assertion)
  | some txout =>
    let spent := (coins.spend prevout.n.toNat).2
    let undo : TxInUndo :=
      if spent.vout.isEmpty then ⟨txout, spent.fCoinBase, spent.nHeight, spent.nVersion⟩
      else { txout }
    .ok (undo, putCoins table prevout.hash spent)

/-- The loop of `UpdateCoins`. -/
def spendInputs (table : CoinsTable) : List TxIn → Except ConnectFailure (TxUndo × CoinsTable)
  | [] => .ok ([], table)
  | txin :: rest =>
    match spendInput table txin.prevout with
    | .error failure => .error failure
    | .ok (undo, table) =>
      match spendInputs table rest with
      | .error failure => .error failure
      | .ok (vprevout, table) => .ok (undo :: vprevout, table)

/-- `ModifyNewCoins`, for a topmost cache that holds what is unspent. -/
def createCoins (H : Hashing) (tx : Transaction) (nHeight : Int) (table : CoinsTable)
    : Except ConnectFailure CoinsTable :=
  if !tx.isCoinBase && !(coinsAt table (tx.getHash H)).isPruned then .error .preExistingCoins
  else .ok (putCoins table (tx.getHash H) (Coins.fromTx tx nHeight))

/-- `UpdateCoins`: the undo data of the transaction, and the coins afterwards. -/
def updateCoins (H : Hashing) (tx : Transaction) (nHeight : Int) (table : CoinsTable)
    : Except ConnectFailure (TxUndo × CoinsTable) :=
  match if tx.isCoinBase then .ok ([], table) else spendInputs table tx.vin with
  | .error failure => .error failure
  | .ok (txundo, table) => (createCoins H tx nHeight table).map fun table => (txundo, table)

-- Undoing

end Pqcoin
