import Pqcoin.Coins.CacheRuns
import Pqcoin.Coins.Inflation
import Pqcoin.Coins.ScriptChecks
import Pqcoin.Dilithium.ChallengeSampling
import Pqcoin.Dilithium.Hints
import Pqcoin.Dilithium.Transform
import Pqcoin.Dilithium.Verify
import Pqcoin.Keys.Derivation
import Pqcoin.Keys.MessageSignature
import Pqcoin.Keys.MnemonicEncoding
import Pqcoin.Mempool.Bookkeeping
import Pqcoin.Mining.Coherence
import Pqcoin.Mining.Submissions
import Pqcoin.Mining.VectorRuns
import Pqcoin.Primitives.Integers
import Pqcoin.Script.SigOps
import Pqcoin.Script.SignedParts
import Pqcoin.Validation.MostWork
import Pqcoin.Wallet.Abandon
import Pqcoin.Wallet.Conservation
import Pqcoin.Wallet.KeyConsistency
import Pqcoin.Wallet.KeyPool
import Pqcoin.Consensus.MerkleTree
import Pqcoin.Net.Navigation
import Pqcoin.Net.LimitedMap
import Pqcoin.Script.CuckooCache
