import Cryptopuff.Validation

/-!
# The store's tables and statements

The SQLite tables of `db.go` that the chain lives in, and the SQL statements the node runs
on them, one definition each. A row holds the values Go binds, as `Scan` reads them back
(`Hash.scan_value`, `Address.scan_value`): a hash column holds a `Hash` and an address
column the address's bytes. SQL compares bound values, and `Hash.Value` binds `EmptyHash`
as `NULL`, which no `=` matches: `Hash.sqlEq`. Each table is a list in `rowid` order.

A statement that violates `NOT NULL` or a primary key fails and changes nothing;
`INSERT OR IGNORE` skips the row instead. Foreign keys are not checked here: every
statement of the node inserts a row only after the row it references, and `PendingTxs`
deletes only transactions nothing references. SQLite turns an `INTEGER` overflow into a
`REAL`, which `Scan` then refuses; the model keeps exact integers and refuses them in the
same place (`Store.selectBalance`).

The `keys` and `miner_address` tables are a separate record, `Wallet` (`Wallet.lean`): no
statement on the chain tables reads them.
-/

namespace Cryptopuff

/-- SQL `=` between two bound hashes. `Hash.Value` binds `EmptyHash` as `NULL`, and a
comparison with `NULL` is never true. -/
def Hash.sqlEq (a b : Hash) : Bool := a == b && b != emptyHash

theorem Hash.ext_bytes {a b : Hash} (h : a.bytes = b.bytes) : a = b := by
  cases a; cases b; cases h; rfl

theorem Hash.sqlEq_iff {a b : Hash} : Hash.sqlEq a b = true ↔ a = b ∧ b ≠ emptyHash := by
  simp [Hash.sqlEq]

/-- `Hash.sqlEq` is SQL `=` on the values `Hash.Value` binds. -/
theorem Hash.sqlEq_iff_value {a b : Hash} :
    Hash.sqlEq a b = true ↔ ∃ t, a.value = some t ∧ b.value = some t := by
  rw [Hash.sqlEq_iff]
  constructor
  · rintro ⟨rfl, hb⟩
    exact ⟨Hex.encode a.bytes, by simp [Hash.value, hb], by simp [Hash.value, hb]⟩
  · rintro ⟨t, ha, hb⟩
    have h := Hash.value_injective (ha.trans hb.symm)
    subst h
    refine ⟨rfl, fun he => ?_⟩
    simp [Hash.value, he] at hb

/-! ## Rows -/

/-- A row of `blocks`: the block's hash, its parent's, its height and its JSON. -/
structure BlockRow where
  hash : Hash
  previousHash : Hash
  height : Int
  block : List Char
deriving DecidableEq

/-- A row of `balances`. -/
structure BalanceRow where
  blockHash : Hash
  address : List UInt8
  balance : Int
deriving DecidableEq

/-- The primary key of a balance row. -/
def BalanceRow.key (r : BalanceRow) : Hash × List UInt8 := (r.blockHash, r.address)

/-- A row of `included_txs` or `block_txs`. -/
structure Link where
  blockHash : Hash
  txHash : Hash
deriving DecidableEq

/-- A row of `txs`. -/
structure TxRow where
  hash : Hash
  source : List UInt8
  destination : List UInt8
  amount : Int
  fee : Int
  tx : List Char
deriving DecidableEq

/-- The row `addBlock` inserts for a block. -/
def Block.row (b : Block) : BlockRow := ⟨b.hash, b.previousHash, b.height.val, b.marshal⟩

@[simp] theorem Block.row_hash (b : Block) : b.row.hash = b.hash := rfl

@[simp] theorem Block.row_height (b : Block) : b.row.height = b.height.val := rfl

/-- The row `addTx` inserts for a transaction. -/
def SignedTx.row (s : SignedTx) : TxRow :=
  ⟨s.hash, Bytes.data s.source, Bytes.data s.destination, s.amount.val, s.fee.val, s.marshal⟩

/-- The node's tables. -/
structure Store where
  blocks : List BlockRow
  balances : List BalanceRow
  includedTxs : List Link
  blockTxs : List Link
  txs : List TxRow
  peers : List String

namespace Store

variable (S : Store)

/-! ## `blocks` -/

/-- `SELECT ... FROM blocks WHERE hash = ?`. -/
def selectBlock (h : Hash) : Option BlockRow := S.blocks.find? fun r => Hash.sqlEq r.hash h

/-- `INSERT INTO blocks`: `hash` is `NOT NULL` and the primary key. -/
def insertBlock (r : BlockRow) : Except Err Store :=
  if r.hash = emptyHash then .error (.constraint false "NOT NULL constraint failed: blocks.hash")
  else if S.blocks.any (·.hash == r.hash) then
    .error (.constraint true "UNIQUE constraint failed: blocks.hash")
  else .ok { S with blocks := S.blocks ++ [r] }

/-- One step of the scan behind `ORDER BY height DESC LIMIT 1`, which meets the rows in
`rowid` order: a row at least as high as the best so far replaces it. -/
def bestStep (best : Option BlockRow) (r : BlockRow) : Option BlockRow :=
  match best with
  | some b => if b.height ≤ r.height then some r else some b
  | none => some r

/-- The row `ORDER BY height DESC LIMIT 1` gives: the greatest height, and of equal heights
the row inserted last, as SQLite walks the `blocks_height` index backwards. -/
def bestRow : Option BlockRow := S.blocks.foldl bestStep none

/-! ## `balances` -/

/-- `SELECT balance FROM balances WHERE block_hash = ? AND address = ?`, scanned into an
`int64`; no row reads as 0. -/
def selectBalance (h : Hash) (a : List UInt8) : Except Err Int :=
  match S.balances.find? fun r => Hash.sqlEq r.blockHash h && r.address == a with
  | none => .ok 0
  | some r =>
      if Int64.InRange r.balance then .ok r.balance
      else .error (.scan "converting driver.Value type float64 to a int64: invalid syntax")

/-- Inserting one balance row: `block_hash` is `NOT NULL` and `(block_hash, address)` the
primary key. -/
def insertBalance (r : BalanceRow) : Except Err Store :=
  if r.blockHash = emptyHash then
    .error (.constraint false "NOT NULL constraint failed: balances.block_hash")
  else if S.balances.any (fun r' => r'.blockHash == r.blockHash && r'.address == r.address) then
    .error (.constraint true "UNIQUE constraint failed: balances.block_hash, balances.address")
  else .ok { S with balances := S.balances ++ [r] }

/-- `INSERT INTO balances (block_hash, address, balance) SELECT ?, address, balance FROM
balances WHERE block_hash = ?`: the parent's balances, copied row by row. -/
def copyBalances (h parent : Hash) : Except Err Store :=
  (S.balances.filter fun r => Hash.sqlEq r.blockHash parent).foldlM
    (fun S r => S.insertBalance { r with blockHash := h }) S

/-- `UPDATE balances SET balance = balance - ? WHERE block_hash = ? AND address = ?`. -/
def debit (h : Hash) (a : List UInt8) (d : Int) : Store :=
  { S with balances := S.balances.map fun r =>
      if Hash.sqlEq r.blockHash h && r.address == a then { r with balance := r.balance - d } else r }

/-- `INSERT INTO balances (block_hash, address, balance) VALUES (?, ?, ?) ON CONFLICT
(block_hash, address) DO UPDATE SET balance = balance + excluded.balance`. -/
def credit (h : Hash) (a : List UInt8) (d : Int) : Except Err Store :=
  if h = emptyHash then .error (.constraint false "NOT NULL constraint failed: balances.block_hash")
  else if S.balances.any (fun r => r.blockHash == h && r.address == a) then
    .ok { S with balances := S.balances.map fun r =>
      if r.blockHash == h && r.address == a then { r with balance := r.balance + d } else r }
  else .ok { S with balances := S.balances ++ [⟨h, a, d⟩] }

/-- `DELETE FROM balances WHERE balance = 0`. -/
def deleteZeroBalances : Store := { S with balances := S.balances.filter (·.balance ≠ 0) }

/-! ## `included_txs` and `block_txs` -/

/-- Inserting into a `(block_hash, tx_hash)` table: both columns are `NOT NULL` and together
the primary key. -/
def insertLink (table : String) (rows : List Link) (l : Link) : Except Err (List Link) :=
  if l.blockHash = emptyHash then
    .error (.constraint false ("NOT NULL constraint failed: " ++ table ++ ".block_hash"))
  else if l.txHash = emptyHash then
    .error (.constraint false ("NOT NULL constraint failed: " ++ table ++ ".tx_hash"))
  else if l ∈ rows then
    .error (.constraint true
      ("UNIQUE constraint failed: " ++ table ++ ".block_hash, " ++ table ++ ".tx_hash"))
  else .ok (rows ++ [l])

/-- `INSERT INTO included_txs (block_hash, tx_hash) VALUES (?, ?)`. -/
def insertIncluded (l : Link) : Except Err Store :=
  (insertLink "included_txs" S.includedTxs l).map fun rows => { S with includedTxs := rows }

/-- `INSERT INTO block_txs (block_hash, tx_hash) VALUES (?, ?)`. -/
def insertBlockTx (l : Link) : Except Err Store :=
  (insertLink "block_txs" S.blockTxs l).map fun rows => { S with blockTxs := rows }

/-- `INSERT INTO included_txs (block_hash, tx_hash) SELECT ?, tx_hash FROM included_txs
WHERE block_hash = ?`. -/
def copyIncluded (h parent : Hash) : Except Err Store :=
  (S.includedTxs.filter fun l => Hash.sqlEq l.blockHash parent).foldlM
    (fun S l => S.insertIncluded ⟨h, l.txHash⟩) S

/-- `SELECT 1 FROM included_txs WHERE block_hash = ? AND tx_hash = ?` finds a row. -/
def selectIncluded (h t : Hash) : Bool :=
  S.includedTxs.any fun l => Hash.sqlEq l.blockHash h && Hash.sqlEq l.txHash t

/-! ## `txs` -/

/-- `addTx`: `INSERT OR IGNORE INTO txs`, which skips a row whose hash is `NULL` or already
stored. -/
def addTx (s : SignedTx) : Store :=
  if s.hash = emptyHash ∨ S.txs.any (·.hash == s.hash) then S
  else { S with txs := S.txs ++ [s.row] }

/-- The pending rows of `PendingTxs` and `AllPendingTxs`: `SELECT tx FROM txs t LEFT JOIN
included_txs i ON i.tx_hash = t.hash AND i.block_hash = ? WHERE i.tx_hash IS NULL`. -/
def pendingRows (tip : Hash) : List TxRow := S.txs.filter fun r => !S.selectIncluded tip r.hash

/-- `DELETE FROM txs WHERE hash = ? AND NOT EXISTS (SELECT 1 FROM block_txs WHERE tx_hash = ?)
AND NOT EXISTS (SELECT 1 FROM included_txs WHERE tx_hash = ?)`. -/
def deleteTx (h : Hash) : Store :=
  if S.blockTxs.any (fun l => Hash.sqlEq l.txHash h) ||
      S.includedTxs.any (fun l => Hash.sqlEq l.txHash h) then S
  else { S with txs := S.txs.filter fun r => !Hash.sqlEq r.hash h }

/-! ## `peers` -/

/-- `INSERT OR IGNORE INTO peers (peer) VALUES (?)` and the number of rows it inserted. -/
def insertPeer (p : String) : Store × Nat :=
  if p ∈ S.peers then (S, 0) else ({ S with peers := S.peers ++ [p] }, 1)

/-- `DELETE FROM peers WHERE peer = ?`. -/
def deletePeer (p : String) : Store := { S with peers := S.peers.filter (· ≠ p) }

/-! ## What the rows mean -/

/-- The balance rows of the block `h`. -/
def balancesAt (h : Hash) : List BalanceRow := S.balances.filter (·.blockHash == h)

/-- The balance of `a` at the block `h`: its row's, or 0 where there is none. -/
def balanceAt (h : Hash) (a : List UInt8) : Int :=
  match (S.balancesAt h).find? (·.address == a) with
  | some r => r.balance
  | none => 0

/-- The hashes of the transactions included up to the block `h`. -/
def includedAt (h : Hash) : List Hash :=
  (S.includedTxs.filter fun l => l.blockHash == h).map (·.txHash)

end Store

end Cryptopuff
