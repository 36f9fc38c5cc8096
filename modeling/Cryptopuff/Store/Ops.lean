import Cryptopuff.Store.State
import Mathlib.Logic.Relation

/-!
# The store's operations

The methods of `DB` that change the chain's tables, written over the statements of
`Cryptopuff.Store.State`, and the stores a node reaches with them.

Each method runs as one transaction: the closure returns `.ok` with the tables it leaves,
which then commit, or an error, and the transaction rolls back. `Step` is one committed
transaction, so a failed one, whether the closure, the `COMMIT` or every retry of
`TransactWithRetry` failed, is a step that is not taken. `Reachable` closes `Step` from the
store `migrate` creates.

Blocks and transactions reach the store hashed: the HTTP handlers and `PeerClient` call
`UpdateHash` on what they decode and `NewBlock` hashes what it builds, so `Op.run` hashes
its argument. A read-only method (`BestBlock`, `Blocks`, `Peers`, `Addresses`, `MyTxs`,
`AllPendingTxs`) or one that writes only `keys` or `miner_address` changes no modelled table
and is no `Op`.
-/

namespace Cryptopuff

/-! ## Validating a transaction -/

/-- `validTx`: the transaction is valid, its source can pay for it at `tip`, and `tip` has
not included it yet. -/
def validTx (C : Crypto) (S : Store) (stx : SignedTx) (tip : Hash) : Except Err Unit := do
  stx.valid C
  let balance ← S.selectBalance tip (Bytes.data stx.source)
  if balance < stx.toTx.requiredBalance.val then
    throw (.invalidBlock ("cryptopuff: insufficient balance (" ++ toString balance ++
      " coins, " ++ toString stx.toTx.requiredBalance.val ++ " required)") none)
  if S.selectIncluded tip stx.hash then
    throw (.invalidBlock "cryptopuff: transaction already included in blockchain" none)

/-! ## Adding a block -/

/-- One pass of the loop of `addBlock` over the block's transactions, with Go's `int64` fee
accumulator: check the transaction against the new block `h`, move the coins, and record it
in `txs`, `included_txs` and `block_txs`. -/
def addBlockTx (C : Crypto) (h : Hash) (acc : Store × Int64) (stx : SignedTx) :
    Except Err (Store × Int64) := do
  validTx C acc.1 stx h
  let S ← (acc.1.debit h (Bytes.data stx.source) stx.toTx.requiredBalance.val).credit h
    (Bytes.data stx.destination) stx.amount.val
  let S ← (S.addTx stx).insertIncluded ⟨h, stx.hash⟩
  let S ← S.insertBlockTx ⟨h, stx.hash⟩
  pure (S, acc.2 + stx.fee)

/-- What `addBlock` does once the block's row is in: copy the parent's balances and
inclusion set, check the block against its parent, apply its transactions, credit the
reward and the fees when their `int64` sum is positive, and drop the zero balances. -/
def applyBlock (C : Crypto) (b previous : Block) (S : Store) : Except Err Store := do
  let S ← S.copyBalances b.hash b.previousHash
  let S ← S.copyIncluded b.hash b.previousHash
  b.valid C previous
  let acc ← b.txs.foldlM (addBlockTx C b.hash) (S, b.rewardOutput.amount)
  let S ← if 0 < acc.2.val then
      acc.1.credit b.hash (Bytes.data b.rewardOutput.destination) acc.2.val
    else pure acc.1
  pure S.deleteZeroBalances

/-- `addBlock`: find and decode the parent, insert the block's row, and apply the block. A
block whose hash is stored already is a primary-key conflict, on which `addBlock` returns
without an error and without a change. -/
def addBlock (C : Crypto) (b : Block) (S : Store) : Except Err Store :=
  match S.selectBlock b.previousHash with
  | none => .error .unknownParent
  | some row =>
      match decodeBlock C row.block with
      | .error e => .error e
      | .ok previous =>
          match S.insertBlock b.row with
          | .error (.constraint true _) => .ok S
          | .error e => .error e
          | .ok S => applyBlock C b previous S

/-- The first loop of `AddBlocks`: the index of the first block of the list whose hash is
stored. -/
def divergedAt (S : Store) (blocks : List Block) : Option Nat :=
  blocks.findIdx? fun b => (S.selectBlock b.hash).isSome

/-- `DB.AddBlocks`: with `d` the index of the first stored block, add the `d` blocks before
it, oldest first; a list with no stored block, or whose first block is stored, is ignored. -/
def DB.addBlocks (C : Crypto) (blocks : List Block) (S : Store) : Except Err Store :=
  match divergedAt S blocks with
  | some (d + 1) => (blocks.take (d + 1)).reverse.foldlM (fun S b => addBlock C b S) S
  | _ => .ok S

/-! ## Reading the chain -/

/-- `bestBlockHash`. -/
def bestBlockHash (S : Store) : Except Err Hash :=
  match S.bestRow with
  | some r => .ok r.hash
  | none => .error .noRows

/-- `DB.BestBlock`. -/
def DB.bestBlock (C : Crypto) (S : Store) : Except Err Block :=
  match S.bestRow with
  | some r => decodeBlock C r.block
  | none => .error .noRows

/-- The rows the recursive query of `DB.Blocks` lists: `r` and its ancestors along
`previous_hash`. `UNION` ends the recursion at a row already listed; `fuel`, the number of
rows, bounds it the same way. -/
def Store.chainRows (S : Store) : Nat → BlockRow → List BlockRow
  | 0, _ => []
  | fuel + 1, r =>
      r :: match S.selectBlock r.previousHash with
        | some p => S.chainRows fuel p
        | none => []

/-- `DB.Blocks`: the best chain, newest first, each block decoded; `none` is the nil slice
of an empty table. -/
def DB.blocks (C : Crypto) (S : Store) : Except Err (Option (List Block)) :=
  match S.bestRow with
  | none => .ok none
  | some r => ((S.chainRows S.blocks.length r).mapM fun r => decodeBlock C r.block).map some

/-! ## Transactions -/

/-- `DB.AddTx`: a transaction valid at the best block goes into `txs`. -/
def DB.addTx (C : Crypto) (stx : SignedTx) (S : Store) : Except Err Store := do
  let tip ← bestBlockHash S
  validTx C S stx tip
  pure (S.addTx stx)

/-- A row of the temporary table `temp_balances`. -/
structure TempRow where
  address : List UInt8
  balance : Int

/-- Inserting one row into `temp_balances`, whose primary key is `address`. -/
def insertTemp (temp : List TempRow) (r : TempRow) : Except Err (List TempRow) :=
  if temp.any (·.address == r.address) then
    .error (.constraint true "UNIQUE constraint failed: temp_balances.address")
  else .ok (temp ++ [r])

/-- `INSERT INTO temp_balances (address, balance) SELECT address, balance FROM balances
WHERE block_hash = ?`. -/
def copyTemp (S : Store) (tip : Hash) : Except Err (List TempRow) :=
  ((S.balances.filter fun r => Hash.sqlEq r.blockHash tip).map fun r => ⟨r.address, r.balance⟩).foldlM
    insertTemp []

/-- `SELECT balance FROM temp_balances WHERE address = ?`, scanned into an `int64`. -/
def selectTemp (temp : List TempRow) (a : List UInt8) : Except Err Int :=
  match temp.find? (·.address == a) with
  | none => .ok 0
  | some r =>
      if Int64.InRange r.balance then .ok r.balance
      else .error (.scan "converting driver.Value type float64 to a int64: invalid syntax")

/-- `UPDATE temp_balances SET balance = balance - ? WHERE address = ?`. -/
def debitTemp (temp : List TempRow) (a : List UInt8) (d : Int) : List TempRow :=
  temp.map fun r => if r.address == a then { r with balance := r.balance - d } else r

/-- `INSERT INTO temp_balances (address, balance) VALUES (?, ?) ON CONFLICT (address) DO
UPDATE SET balance = balance + excluded.balance`. -/
def creditTemp (temp : List TempRow) (a : List UInt8) (d : Int) : List TempRow :=
  if temp.any (·.address == a) then
    temp.map fun r => if r.address == a then { r with balance := r.balance + d } else r
  else temp ++ [⟨a, d⟩]

/-- `validTemporaryTx`: `validTx` against `temp_balances`, without the inclusion check. -/
def validTemporaryTx (C : Crypto) (temp : List TempRow) (stx : SignedTx) : Except Err Unit := do
  stx.valid C
  let balance ← selectTemp temp (Bytes.data stx.source)
  if balance < stx.toTx.requiredBalance.val then
    throw (.invalidBlock ("cryptopuff: insufficient balance (" ++ toString balance ++
      " coins, " ++ toString stx.toTx.requiredBalance.val ++ " required)") none)

/-- A stored transaction as `PendingTxs` reads it: `json.Unmarshal`, then `UpdateHash`. -/
def decodeSignedTx (C : Crypto) (text : List Char) : Except Err SignedTx :=
  match SignedTx.unmarshal text with
  | .ok s => .ok (s.updateHash C)
  | .error e => .error (.decode e)

theorem decodeSignedTx_marshal (C : Crypto) (s : SignedTx) :
    decodeSignedTx C s.marshal = .ok (s.updateHash C) := by
  rw [decodeSignedTx, SignedTx.unmarshal_marshal]
  rfl

/-- A hashed transaction reads back from its row. -/
theorem decodeSignedTx_row {C : Crypto} {s : SignedTx} (hs : s.updateHash C = s) :
    decodeSignedTx C s.row.tx = .ok s := by
  rw [SignedTx.row, decodeSignedTx_marshal, hs]

/-- The loop of `PendingTxs` over the pending rows, carrying the store, `temp_balances` and
the transactions picked so far. An invalid transaction is deleted unless a block refers to
it; a valid one is picked and moves coins in `temp_balances`. The loop leaves by `break`
once `limit` are picked, with the `SELECT` cursor still open, and the `DROP TABLE
temp_balances` after it then fails with `SQLITE_LOCKED`: that pass is `busy`. Only a loop
that reads every row, and so closes the cursor, ends with the picks. -/
def pendingLoop (C : Crypto) (limit : Int) :
    List TxRow → Store × List TempRow × List SignedTx →
      Except Err (Store × List TempRow × List SignedTx)
  | [], acc => .ok acc
  | r :: rs, (S, temp, picked) =>
      match decodeSignedTx C r.tx with
      | .error e => .error e
      | .ok stx =>
          match validTemporaryTx C temp stx with
          | .error (.invalidBlock _ _) => pendingLoop C limit rs (S.deleteTx stx.hash, temp, picked)
          | .error e => .error e
          | .ok () =>
              let temp := creditTemp (debitTemp temp (Bytes.data stx.source)
                stx.toTx.requiredBalance.val) (Bytes.data stx.destination) stx.amount.val
              if limit ≤ (picked.length + 1 : Nat) then .error .busy
              else pendingLoop C limit rs (S, temp, picked ++ [stx])

section PendingLoop

variable {C : Crypto} {limit : Int} {r : TxRow} {rs : List TxRow} {S : Store}
  {temp : List TempRow} {picked : List SignedTx} {stx : SignedTx}

/-- A row the loop deletes: it decodes to a transaction that `validTemporaryTx` refuses with an
`InvalidBlockError`. -/
theorem pendingLoop_cons_skip (hd : decodeSignedTx C r.tx = .ok stx) {m : String}
    {b : Option String} (hv : validTemporaryTx C temp stx = .error (.invalidBlock m b)) :
    pendingLoop C limit (r :: rs) (S, temp, picked) =
      pendingLoop C limit rs (S.deleteTx stx.hash, temp, picked) := by
  simp only [pendingLoop, hd, hv]

/-- A row the loop picks, while fewer than `limit` are picked with it. -/
theorem pendingLoop_cons_pick (hd : decodeSignedTx C r.tx = .ok stx)
    (hv : validTemporaryTx C temp stx = .ok ()) (hl : ¬limit ≤ (picked.length + 1 : Nat)) :
    pendingLoop C limit (r :: rs) (S, temp, picked) =
      pendingLoop C limit rs (S, creditTemp (debitTemp temp (Bytes.data stx.source)
        stx.toTx.requiredBalance.val) (Bytes.data stx.destination) stx.amount.val,
        picked ++ [stx]) := by
  simp only [pendingLoop, hd, hv, if_neg hl]

/-- The pick that reaches `limit`: the loop leaves by `break` and the pass fails `busy`. -/
theorem pendingLoop_cons_limit (hd : decodeSignedTx C r.tx = .ok stx)
    (hv : validTemporaryTx C temp stx = .ok ()) (hl : limit ≤ (picked.length + 1 : Nat)) :
    pendingLoop C limit (r :: rs) (S, temp, picked) = .error .busy := by
  simp only [pendingLoop, hd, hv, if_pos hl]

/-- What a row does in a pass of the loop that succeeds: it decodes, and is either deleted or
picked below the limit. The pick that reaches `limit` never succeeds. -/
theorem pendingLoop_cons_ok {acc : Store × List TempRow × List SignedTx}
    (hc : pendingLoop C limit (r :: rs) (S, temp, picked) = .ok acc) :
    ∃ stx, decodeSignedTx C r.tx = .ok stx ∧
      ((∃ m b, validTemporaryTx C temp stx = .error (.invalidBlock m b) ∧
          pendingLoop C limit rs (S.deleteTx stx.hash, temp, picked) = .ok acc) ∨
        (validTemporaryTx C temp stx = .ok () ∧ ¬limit ≤ (picked.length + 1 : Nat) ∧
          pendingLoop C limit rs (S, creditTemp (debitTemp temp (Bytes.data stx.source)
            stx.toTx.requiredBalance.val) (Bytes.data stx.destination) stx.amount.val,
            picked ++ [stx]) = .ok acc)) := by
  unfold pendingLoop at hc
  split at hc
  · cases hc
  · next stx hd =>
    refine ⟨stx, hd, ?_⟩
    split at hc
    · next m b hv => exact .inl ⟨m, b, hv, hc⟩
    · cases hc
    · next hv =>
      split_ifs at hc with hl
      exact .inr ⟨hv, hl, hc⟩

end PendingLoop

/-- `DB.PendingTxs(tip, limit)`: the transactions a miner puts in its next block on `tip`,
and the store without the invalid ones; `none` is the nil slice. This is one pass of the
transaction's body: when `limit` transactions are valid it fails `busy` (see `pendingLoop`),
the same on every retry. -/
def DB.pendingTxs (C : Crypto) (tip : Hash) (limit : Int) (S : Store) :
    Except Err (Store × Option (List SignedTx)) := do
  let temp ← copyTemp S tip
  let acc ← pendingLoop C limit (S.pendingRows tip) (S, temp, [])
  pure (acc.1, if acc.2.2 = [] then none else some acc.2.2)

/-! ## Reachable stores -/

/-- The store `migrate` leaves in a new database: the genesis block, inserted with
`INSERT OR IGNORE`. -/
def migrate (C : Crypto) : Store :=
  { blocks := if (genesisBlock C).hash = emptyHash then [] else [(genesisBlock C).row]
    balances := [], includedTxs := [], blockTxs := [], txs := [], peers := [] }

/-- The methods that change the modelled tables. -/
inductive Op where
  | addBlock (b : Block)
  | addBlocks (bs : List Block)
  | addTx (s : SignedTx)
  | pendingTxs (tip : Hash) (limit : Int)
  | addPeer (p : String)
  | removePeer (p : String)

/-- The tables an operation commits, its arguments hashed as the callers hash them. -/
def Op.run (C : Crypto) : Op → Store → Except Err Store
  | .addBlock b, S => Cryptopuff.addBlock C (b.updateHash C) S
  | .addBlocks bs, S => DB.addBlocks C (bs.map (Block.updateHash C)) S
  | .addTx s, S => DB.addTx C (s.updateHash C) S
  | .pendingTxs tip limit, S => (DB.pendingTxs C tip limit S).map (·.1)
  | .addPeer p, S => .ok (S.insertPeer p).1
  | .removePeer p, S => .ok (S.deletePeer p)

/-- One committed transaction. -/
inductive Step (C : Crypto) : Store → Store → Prop
  | commit {S S' : Store} (op : Op) : op.run C S = .ok S' → Step C S S'

/-- The store after a transaction of `op`: the one it commits, or `S` when it fails and rolls
back. -/
def Op.apply (C : Crypto) (op : Op) (S : Store) : Store :=
  match op.run C S with
  | .ok S' => S'
  | .error _ => S

theorem Op.apply_of_run {C : Crypto} {op : Op} {S S' : Store} (h : op.run C S = .ok S') :
    op.apply C S = S' := by
  simp only [Op.apply, h]

/-- The stores a node reaches from a new database. -/
def Reachable (C : Crypto) (S : Store) : Prop := Relation.ReflTransGen (Step C) (migrate C) S

end Cryptopuff
