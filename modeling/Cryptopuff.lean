import Cryptopuff.Basic
import Cryptopuff.Codec.Hex
import Cryptopuff.Codec.Json
import Cryptopuff.Codec.Base64
import Cryptopuff.Types
import Cryptopuff.Codec.Wire
import Cryptopuff.Validation
import Cryptopuff.Ledger
import Cryptopuff.Store.State
import Cryptopuff.Store.Ops
import Cryptopuff.Store.Statements
import Cryptopuff.Store.AddBlock
import Cryptopuff.Store.Invariant
import Cryptopuff.Supply
import Cryptopuff.Chain
import Cryptopuff.StoredBlocks
import Cryptopuff.Store.Integrity
import Cryptopuff.Replay
import Cryptopuff.Mining
import Cryptopuff.Sync
import Cryptopuff.Resync
import Cryptopuff.Hashing
import Cryptopuff.Wallet
import Cryptopuff.Queries
import Cryptopuff.MyTxs
import Cryptopuff.HeightWrap
import Cryptopuff.Database.Tx
import Cryptopuff.Server.Peers
import Cryptopuff.Server.Mine
