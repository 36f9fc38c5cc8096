import Cryptopuff.Basic

/-!
# Transactions and blocks

The data model of `tx.go`, `block.go` and `address.go`. Go embeds `TxOutput` in `Tx` and
`Tx` in `SignedTx`, promoting their fields; `extends` does the same here, so `s.amount`
reads as in the source. The `Hash` fields are the ones tagged `json:"-"`: they are not
encoded and are recomputed by `UpdateHash` after every decode.

`Err` collects the errors the store operations return. `InvalidBlockError` keeps its
message and the text of its cause; the other variants are the sentinel `ErrUnknownParent`,
`sql.ErrNoRows`, SQLite's constraint and lock failures, `Scan` and JSON decoding errors.
-/

namespace Cryptopuff

/-- `type Address []byte`: two bytes of an MD5 digest (V1) or all sixteen (V2). -/
abbrev Address := Bytes

/-- `TxOutput`: where coins go and how many. -/
structure TxOutput where
  destination : Address
  amount : Int64
deriving DecidableEq

/-- `Tx`: a transfer from `source`, paying `fee` to the miner. -/
structure Tx extends TxOutput where
  source : Address
  fee : Int64
deriving DecidableEq

/-- `SignedTx`: a transfer with its random `id`, the RSA-PSS `signature` over the transfer
and the signer's PKCS#1 `publicKey`. `hash` is the chain's identity for it. -/
structure SignedTx extends Tx where
  hash : Hash
  id : TxID
  signature : Bytes
  publicKey : Bytes
deriving DecidableEq

/-- `Block`. `transactions` is `none` for a nil slice, which `json.Marshal` writes as
`null`. -/
structure Block where
  hash : Hash
  previousHash : Hash
  height : Int64
  nonce : Int64
  rewardOutput : TxOutput
  transactions : Option (List SignedTx)
deriving DecidableEq

/-- The transactions a `range` over `Block.Transactions` visits. -/
def Block.txs (b : Block) : List SignedTx := b.transactions.getD []

/-- `MaxBlockReward`. -/
def maxBlockReward : Int := 1000

/-- `MaxTransactionsPerBlock`. -/
def maxTransactionsPerBlock : Nat := 100

/-! ## Errors -/

/-- The errors of the modelled operations. -/
inductive Err where
  /-- `InvalidBlockError{Message, Cause}`, the cause by its text. -/
  | invalidBlock (message : String) (cause : Option String)
  /-- `ErrUnknownParent`. -/
  | unknownParent
  /-- `sql.ErrNoRows`. -/
  | noRows
  /-- A violated SQLite constraint; `primaryKey` is whether its extended code is
  `ErrConstraintPrimaryKey`. -/
  | constraint (primaryKey : Bool) (message : String)
  /-- A column value `Scan` cannot convert. -/
  | scan (message : String)
  /-- An error decoding stored or received JSON. -/
  | decode (message : String)
  /-- `SQLITE_BUSY` or `SQLITE_LOCKED`, the failures `TransactWithRetry` retries. -/
  | busy
deriving DecidableEq

/-- The errors a gossip handler drops silently: `err.(InvalidBlockError)` succeeds. -/
def Err.isInvalidBlock : Err → Bool
  | .invalidBlock _ _ => true
  | _ => false

/-! ## Amounts -/

/-- `Tx.ValidAmounts`: the fee is not negative, the amount is positive and
`overflow.Add64(Fee, Amount)` reports no overflow. -/
def Tx.validAmounts (t : Tx) : Except String Unit :=
  if t.fee.val < 0 then .error "cryptopuff: negative fee"
  else if t.amount.val ≤ 0 then .error "cryptopuff: negative or zero amount"
  else if ¬Int64.InRange (t.fee.val + t.amount.val) then
    .error "cryptopuff: fee plus amount overflows"
  else .ok ()

/-- `Tx.RequiredBalance`: `Fee + Amount` in Go's wrapping arithmetic. -/
def Tx.requiredBalance (t : Tx) : Int64 := t.fee + t.amount

/-- What `ValidAmounts` establishes. -/
structure Tx.AmountsOk (t : Tx) : Prop where
  fee_nonneg : 0 ≤ t.fee.val
  amount_pos : 0 < t.amount.val
  sum_inRange : Int64.InRange (t.fee.val + t.amount.val)

theorem Tx.amountsOk_of_validAmounts {t : Tx} (h : t.validAmounts = .ok ()) : t.AmountsOk := by
  unfold Tx.validAmounts at h
  split_ifs at h with h1 h2 h3
  exact ⟨by omega, by omega, h3⟩

/-- Once the amounts are valid, the required balance is the exact sum, and positive. -/
theorem Tx.AmountsOk.requiredBalance_val {t : Tx} (h : t.AmountsOk) :
    t.requiredBalance.val = t.fee.val + t.amount.val :=
  Int64.add_val h.sum_inRange

theorem Tx.AmountsOk.requiredBalance_pos {t : Tx} (h : t.AmountsOk) :
    0 < t.requiredBalance.val := by
  rw [h.requiredBalance_val]; have := h.fee_nonneg; have := h.amount_pos; omega

end Cryptopuff
