import Pqcoin.Keys.Mnemonic

/-! What the words of a mnemonic encode: the entropy, followed by one byte of its hash. The
standard takes the first byte of the hash, and `mnemonic_from_data` the fourth.
-/

namespace Pqcoin

open BitVec

end Pqcoin
