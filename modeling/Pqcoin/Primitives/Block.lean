import Pqcoin.Primitives.Transaction
import Pqcoin.Consensus.Params

/-! Block headers, merge-mining proofs and blocks. -/

namespace Pqcoin

-- Pure headers

/-- `CPureBlockHeader`; `nVersion` is an `int32_t`. -/
structure PureBlockHeader where
  nVersion : BitVec 32
  hashPrevBlock : Uint256
  hashMerkleRoot : Uint256
  nTime : BitVec 32
  nBits : BitVec 32
  nNonce : BitVec 32
  deriving DecidableEq

namespace PureBlockHeader

variable (header : PureBlockHeader)

def VERSION_AUXPOW : BitVec 32 := 0x100

def serialize : List Byte :=
  bytesLE 4 header.nVersion ++ bytesLE 32 header.hashPrevBlock
    ++ bytesLE 32 header.hashMerkleRoot ++ bytesLE 4 header.nTime ++ bytesLE 4 header.nBits
    ++ bytesLE 4 header.nNonce

/-- `GetHash`: double SHA-256 of the header bytes. -/
def getHash (H : Hashing) (header : PureBlockHeader) : Uint256 := H.hash256 header.serialize

/-- `GetPoWHash`: scrypt of the header bytes. -/
def getPoWHash (H : Hashing) (header : PureBlockHeader) : Uint256 := H.scrypt header.serialize

def getBlockTime : Int := header.nTime.toNat

/-- `GetBaseVersion`: the signed remainder by `VERSION_AUXPOW`. -/
def getBaseVersion : Int :=
  header.nVersion.toInt.tmod VERSION_AUXPOW.toInt

/-- `GetChainId`: the arithmetic shift `nVersion >> 16`. -/
def getChainId : BitVec 32 := header.nVersion.sshiftRight 16

def isAuxpow : Bool := header.nVersion &&& VERSION_AUXPOW != 0

def isLegacy : Bool :=
  header.nVersion == 1 || (header.nVersion == 2 && header.getChainId == 0)

end PureBlockHeader

-- Merge-mining proofs

/-- `CAuxPow`, with the fields of its base class `CMerkleTx` first. -/
structure AuxPow where
  tx : Transaction
  hashBlock : Uint256
  vMerkleBranch : List Uint256
  nIndex : BitVec 32
  vChainMerkleBranch : List Uint256
  nChainIndex : BitVec 32
  parentBlock : PureBlockHeader
  deriving DecidableEq

namespace AuxPow

/-- `SerializationOp`; the transaction follows the stream's witness permission. -/
def serialize (fAllowWitness : Bool) (auxpow : AuxPow) : List Byte :=
  auxpow.tx.serialize fAllowWitness ++ bytesLE 32 auxpow.hashBlock
    ++ serializeVector (bytesLE 32) auxpow.vMerkleBranch ++ bytesLE 4 auxpow.nIndex
    ++ serializeVector (bytesLE 32) auxpow.vChainMerkleBranch ++ bytesLE 4 auxpow.nChainIndex
    ++ auxpow.parentBlock.serialize

/-- The loop of `CheckMerkleBranch`: bit `0` of the shifted index selects the side. -/
def merkleBranchLoop (H : Hashing) (hash : Uint256) : List Uint256 → BitVec 32 → Uint256
  | [], _ => hash
  | node :: rest, nIndex =>
    let pair :=
      if nIndex &&& 1 ≠ 0 then bytesLE 32 node ++ bytesLE 32 hash
      else bytesLE 32 hash ++ bytesLE 32 node
    merkleBranchLoop H (H.hash256 pair) rest (nIndex.sshiftRight 1)

def checkMerkleBranch (H : Hashing) (hash : Uint256) (vMerkleBranch : List Uint256)
    (nIndex : BitVec 32)
    : Uint256 :=
  if nIndex = -1 then 0 else merkleBranchLoop H hash vMerkleBranch nIndex

/-- `CAuxPow::check`. The three parameters are not read: what is compared is the stored
`hashBlock`, hashed through `vMerkleBranch` at position `0`, with the parent's root.
-/
def check (H : Hashing) (auxpow : AuxPow) (_hashAuxBlock : Uint256) (_nChainId : BitVec 32)
    (_params : Params)
    : Bool :=
  checkMerkleBranch H auxpow.hashBlock auxpow.vMerkleBranch 0
    == auxpow.parentBlock.hashMerkleRoot

def getParentBlockPoWHash (H : Hashing) (auxpow : AuxPow) : Uint256 :=
  auxpow.parentBlock.getPoWHash H

def getParentBlockHash (H : Hashing) (auxpow : AuxPow) : Uint256 :=
  auxpow.parentBlock.getHash H

end AuxPow

-- Headers and blocks

/-- `CBlockHeader`: the pure header and the optional merge-mining proof. -/
structure BlockHeader extends PureBlockHeader where
  auxpow : Option AuxPow
  deriving DecidableEq

/-- `CBlock`; `fChecked` is memory only. -/
structure Block extends BlockHeader where
  vtx : List Transaction
  fChecked : Bool
  deriving DecidableEq

end Pqcoin
