import Cryptopuff.Chain
import Cryptopuff.Supply

/-!
# The blocks of a reachable store

What a reachable store holds for each of its blocks:

* the rows of the block hold the ledger of its chain, which is the reference ledger
  `Spec.ledger` while the chain is shorter than `2^63 / 1000` blocks (`stored_block_ledger`);
* each block other than the genesis block passed `Block.Valid` on a stored parent
  (`stored_block_valid`);
* the coins of a block are the rewards of its chain (`stored_block_supply`).

The stores these results are tried on run under the toy primitives `LongChain.C₀`, whose digest
keeps bytes 16 to 27 of its input: in a block header its height and half its nonce, in a
transfer's JSON the start of its destination. Every block of a chain has its own hash and
transfers to different addresses have different hashes. The node of the witnesses adds a block
that pays `miner`, then a block with a transfer from `miner`, and takes a second transfer with
`AddTx` (`pendingStore`).

Nothing bounds the `int64` fee accumulator of `addBlock` but the supply: `9223372036854775`
blocks rewarding `1000` give one address `9223372036854775000` coins, less than `2^63`, and a
transfer of `1` coin with a fee of `9223372036854774999` then passes `validTx`. With the reward
`1000` the accumulator wraps to a negative value and the miner receives nothing: the fee is
destroyed. So the ledger of that last block is not `Spec.ledger` of its chain
(`fee_wrap_ledger_ne_spec`), and its coins are not the sum of the rewards
(`fee_wrap_supply_ne_rewards`).
-/

namespace Cryptopuff

namespace LongChain

/-- The digest of the construction: the marker `0 0 0 1`, then bytes 16 to 27 of the input,
padded with zeros. -/
def toyMd5 (x : List UInt8) : Hash :=
  ⟨[0, 0, 0, 1] ++ ((x.drop 16) ++ List.replicate 12 0).take 12, by simp⟩

/-- The one key of the construction. -/
def key : PublicKey := ⟨1, 1⟩

/-- The primitives of the construction. -/
def C₀ : Crypto where
  md5 := toyMd5
  parsePKCS1PublicKey _ := some key
  marshalPKCS1PublicKey _ := []
  verifyPSS _ _ _ := true

/-- The address of `key`, which receives every reward of the chain. -/
def miner : Address := some (toyMd5 []).bytes

/-- The number of reward blocks. -/
def N : Nat := 9223372036854775

/-- The hash of the block at height `k`. -/
def hashAt (k : Nat) : Hash :=
  ⟨[0, 0, 0, 1] ++ be64 (Int64.wrap k) ++ [0, 0, 0, 0], by simp [be64]⟩

/-- The chain: the genesis block, then blocks paying `1000` to `miner`. -/
def rewardBlock : Nat → Block
  | 0 => genesisBlock C₀
  | k + 1 => newBlock C₀ (rewardBlock k) 0 miner 1000 none

/-- What the toy digest keeps of a header: the height and half the nonce. -/
theorem toyMd5_header (b : Block) :
    (toyMd5 (b.header C₀)).bytes = [0, 0, 0, 1] ++ be64 b.height ++ (be64 b.nonce).take 4 := by
  have h16 : b.previousHash.bytes.length = 16 := b.previousHash.length_eq
  have h8 : (be64 b.height).length = 8 := by simp [be64]
  have h8' : (be64 b.nonce).length = 8 := by simp [be64]
  simp only [toyMd5, Block.header, List.append_assoc, List.drop_left' h16, List.take_append_eq_append_take,
    h8, h8', List.take_of_length_le (le_of_eq h8), List.length_append]
  simp [h8, h8']

/-- No hash of the chain is the `NULL` hash. -/
theorem hashAt_ne (k : Nat) : hashAt k ≠ emptyHash := by
  intro h
  have := congrArg (fun h => h.bytes.get? 3) h
  simp [hashAt, emptyHash] at this

/-- No digest of `toyMd5` is the `NULL` hash: its marker byte is `1`. -/
theorem toyMd5_ne (x : List UInt8) : toyMd5 x ≠ emptyHash := by
  intro h
  have := congrArg (fun h => h.bytes.get? 3) h
  simp [toyMd5, emptyHash] at this

/-- Below `2^63` the height's bytes tell the indices apart. -/
theorem hashAt_inj {k k' : Nat} (hk : k < 2 ^ 63) (hk' : k' < 2 ^ 63) (h : hashAt k = hashAt k') :
    k = k' := by
  have h1 := congrArg Hash.bytes h
  simp only [hashAt, List.append_assoc, List.append_cancel_left_eq] at h1
  have h2 := be64_injective (List.append_inj' h1 rfl).1
  have h3 := congrArg Int64.val h2
  rw [Int64.wrap_val ⟨by omega, by omega⟩, Int64.wrap_val ⟨by omega, by omega⟩] at h3
  exact_mod_cast h3

/-- `NewBlock`'s height, one more than the parent's, wrapped. -/
theorem height_succ {p : Block} {k : Nat} (hp : p.height = Int64.wrap k) :
    p.height + 1 = Int64.wrap (k + 1 : Nat) := by
  rw [hp, show (1 : Int64) = Int64.wrap 1 from rfl, Int64.wrap_add]
  push_cast
  rfl

/-- A block with nonce `0` on a parent at height `k` has the hash of height `k + 1`. -/
theorem newBlock_hash {p : Block} {k : Nat} (hp : p.height = Int64.wrap k) (a : Address)
    (r : Int64) (t : Option (List SignedTx)) : (newBlock C₀ p 0 a r t).hash = hashAt (k + 1) := by
  apply Hash.ext_bytes
  show (toyMd5 (Block.header C₀ _)).bytes = _
  rw [toyMd5_header]
  simp only [hashAt, List.append_assoc]
  rw [← height_succ hp]
  rfl

/-- The block at index `k` has height `k`, wrapped to `int64`. -/
theorem rewardBlock_height (k : Nat) : (rewardBlock k).height = Int64.wrap k := by
  induction k with
  | zero => rfl
  | succ k ih => exact height_succ ih

/-- The hash `UpdateHash` gives the block at index `k`. -/
theorem rewardBlock_hash (k : Nat) : (rewardBlock k).hash = hashAt k := by
  cases k with
  | zero =>
      apply Hash.ext_bytes
      show (toyMd5 (Block.header C₀ _)).bytes = _
      rw [toyMd5_header]
      rfl
  | succ k => exact newBlock_hash (rewardBlock_height k) _ _ _

/-- The blocks of the chain carry the hash `UpdateHash` recomputes. -/
theorem rewardBlock_hashed (k : Nat) : (rewardBlock k).updateHash C₀ = rewardBlock k := by
  cases k <;> exact Block.updateHash_idem C₀ _

theorem rewardBlock_txs (k : Nat) : (rewardBlock k).txs = [] := by
  cases k <;> rfl

theorem reward_val : (1000 : Int64).val = 1000 := Int64.ofNat_val 1000 (by norm_num)

/-- Each block on a reward block passes `Block.Valid` when it pays `1000` and its transfers
are valid. -/
theorem newBlock_validOn (k : Nat) (a : Address) (t : Option (List SignedTx))
    (hlen : (t.getD []).length ≤ 100) (ht : ∀ s ∈ (t.getD []).map (SignedTx.updateHash C₀), s.ValidIn C₀) :
    (newBlock C₀ (rewardBlock k) 0 a 1000 t).ValidOn C₀ (rewardBlock k) where
  previousHash_eq := rfl
  height_eq := rfl
  hash_valid := by rw [newBlock_hash (rewardBlock_height k)]; rfl
  reward_nonneg := by rw [show (newBlock C₀ (rewardBlock k) 0 a 1000 t).rewardOutput.amount = 1000 from rfl, reward_val]; norm_num
  reward_le := by rw [show (newBlock C₀ (rewardBlock k) 0 a 1000 t).rewardOutput.amount = 1000 from rfl, reward_val]; rfl
  length_le := by
    cases t with
    | none => simp [newBlock, Block.updateHash, Block.txs]
    | some l => simpa [newBlock, Block.updateHash, Block.txs] using hlen
  txs_valid := by
    cases t with
    | none => simp [newBlock, Block.updateHash, Block.txs]
    | some l => simpa [newBlock, Block.updateHash, Block.txs] using ht

/-- The chain of the first `k` reward blocks after the genesis block. -/
def rewardChain (k : Nat) : List Block := (List.range (k + 1)).map rewardBlock

/-- The chain up to `k` is the chain before `k`, then the block at `k`. -/
theorem rewardChain_eq (k : Nat) : rewardChain k = (List.range k).map rewardBlock ++ [rewardBlock k] := by
  rw [rewardChain, List.range_succ, List.map_append]
  rfl

/-- The ledger after `k` reward blocks. -/
def rewardLedger (k : Nat) : Ledger :=
  ⟨fun a => if a = Bytes.data miner then 1000 * k else 0, []⟩

/-- After `k` blocks, `miner` holds the `k` rewards. -/
theorem rewardLedger_miner (k : Nat) : (rewardLedger k).bal (Bytes.data miner) = 1000 * k := by
  simp [rewardLedger]

theorem rewardLedger_zero : rewardLedger 0 = Ledger.empty := by
  simp [rewardLedger, Ledger.empty]

/-- `addBlock`'s ledger of the next block: the reward credited to `miner`. -/
theorem rewardLedger_succ (k : Nat) :
    (rewardLedger k).applyBlock (rewardBlock (k + 1)) = rewardLedger (k + 1) := by
  have hf : (rewardBlock (k + 1)).feeTotal.val = 1000 := by
    rw [Block.feeTotal, rewardBlock_txs]; exact reward_val
  simp only [Ledger.applyBlock, hf, rewardBlock_txs, List.foldl_nil, if_pos (show (0 : Int) < 1000 by norm_num)]
  simp only [rewardLedger, Ledger.credit, Ledger.mk.injEq, and_true]
  funext a
  have : (rewardBlock (k + 1)).rewardOutput.destination = miner := rfl
  rw [this]
  split_ifs <;> push_cast; omega

/-- The block at index `k` has a hash no earlier block has. -/
theorem hashAt_not_mem {k : Nat} (hk : k < 2 ^ 63) : hashAt k ∉ (List.range k).map hashAt := by
  simp only [List.mem_map, List.mem_range, not_exists, not_and]
  exact fun j hj he => by have := hashAt_inj (by omega) hk he; omega

/-- The hashes of the chain up to `k`. -/
theorem rewardChain_hashes (k : Nat) :
    (rewardChain k).map Block.hash = (List.range (k + 1)).map hashAt := by
  rw [rewardChain, List.map_map]
  exact List.map_congr_left fun j _ => rewardBlock_hash j

/-- A transfer of `1` coin from `miner` to `[3]`. -/
def spendTx : SignedTx :=
  { destination := some [3], amount := 1, source := miner, fee := 0, hash := emptyHash,
    id := ⟨List.replicate 16 0, rfl⟩, signature := some [], publicKey := some [] }

/-- The block on `rewardBlock 1` that carries `spendTx` and pays the reward to `miner`. -/
def spendBlock : Block := newBlock C₀ (rewardBlock 1) 0 miner 1000 (some [spendTx])

/-- A transfer of `1` coin from `miner` to `[4]`, hashed as `AddTx` hashes it. -/
def pendingTx : SignedTx := SignedTx.updateHash C₀ { spendTx with destination := some [4] }

/-- The store after `AddBlock(rewardBlock 1)` on a new database. -/
def rewardStore : Store := (Op.addBlock (rewardBlock 1)).apply C₀ (migrate C₀)

/-- The store after `AddBlock(spendBlock)` on `rewardStore`. -/
def spendStore : Store := (Op.addBlock spendBlock).apply C₀ rewardStore

/-- The store after `AddTx(pendingTx)` on `spendStore`. -/
def pendingStore : Store := (Op.addTx pendingTx).apply C₀ spendStore

theorem spendTx_amountsOk : (spendTx.updateHash C₀).toTx.AmountsOk :=
  Tx.amountsOk_of_validAmounts rfl

/-- `spendTx` needs one coin of `miner`. -/
theorem spendTx_required : (spendTx.updateHash C₀).toTx.requiredBalance.val = 1 := by
  rw [spendTx_amountsOk.requiredBalance_val]
  rfl

/-- `spendBlock` has the hash of height 2. -/
theorem spendBlock_hash : spendBlock.hash = hashAt 2 := newBlock_hash (rewardBlock_height 1) _ _ _

theorem spendBlock_hash_ne : spendBlock.hash ≠ emptyHash := spendBlock_hash.trans_ne (hashAt_ne 2)

theorem spendTx_hash_ne_empty : (spendTx.updateHash C₀).hash ≠ emptyHash := toyMd5_ne _

theorem spendBlock_txs : spendBlock.txs = [spendTx.updateHash C₀] := rfl

/-- The row of the block at index `k < 2^63` stores height `k`. -/
theorem rewardBlock_row_height {k : Nat} (hk : k < 2 ^ 63) : (rewardBlock k).row.height = k :=
  (congrArg Int64.val (rewardBlock_height k)).trans (Int64.wrap_val ⟨by omega, by omega⟩)

theorem spendBlock_row_height : spendBlock.row.height = 2 :=
  (congrArg Int64.val (height_succ (rewardBlock_height 1))).trans (Int64.wrap_val ⟨by omega, by omega⟩)

theorem pendingTx_amountsOk : pendingTx.toTx.AmountsOk := Tx.amountsOk_of_validAmounts rfl

/-- `pendingTx` needs one coin of `miner`. -/
theorem pendingTx_required : pendingTx.toTx.requiredBalance.val = 1 := by
  rw [pendingTx_amountsOk.requiredBalance_val]
  rfl

theorem pendingTx_hashed : pendingTx.updateHash C₀ = pendingTx := SignedTx.updateHash_idem C₀ _

theorem pendingTx_mem_hashed : ∀ s ∈ [pendingTx], s.updateHash C₀ = s := fun s hs => by
  rw [List.mem_singleton.1 hs]; exact pendingTx_hashed

/-- The destinations set the two transfers' hashes apart. -/
theorem pendingTx_hash_ne : pendingTx.hash ≠ (spendTx.updateHash C₀).hash := by decide

theorem pendingTx_hash_ne_empty : pendingTx.hash ≠ emptyHash := toyMd5_ne _

/-- The ledger of `spendBlock`: `miner` paid `1` coin and earned the reward again. -/
theorem spendLedger_miner : ((rewardLedger 1).applyBlock spendBlock).bal (Bytes.data miner) = 1999 := by
  have hf : spendBlock.feeTotal.val = 1000 := by decide
  rw [Ledger.applyBlock, hf, if_pos (by norm_num), spendBlock_txs]
  simp only [List.foldl_cons, List.foldl_nil, Ledger.applyTx, Ledger.credit, rewardLedger,
    spendTx_required]
  show (if Bytes.data miner = Bytes.data miner then (1000 * 1 : Int) else 0) - 1 +
    (if Bytes.data miner = Bytes.data (some [3]) then (1 : Int64).val else 0) +
    (if Bytes.data miner = Bytes.data miner then (1000 : Int) else 0) = 1999
  rw [if_pos rfl, if_pos rfl, if_neg (by decide)]
  norm_num

/-- The ledger of `spendBlock` has included `spendTx` only. -/
theorem spendLedger_inc : ((rewardLedger 1).applyBlock spendBlock).inc = [(spendTx.updateHash C₀).hash] := by
  rw [Ledger.applyBlock_inc, spendBlock_txs]
  rfl

/-- The genesis block under `C₀` has a hash, so `migrate` stores it. -/
theorem genesis_hash_ne : (genesisBlock C₀).hash ≠ emptyHash :=
  (rewardBlock_hash 0).trans_ne (hashAt_ne 0)

/-- `AddBlock(rewardBlock 1)` commits on a new database. -/
theorem rewardStore_spec : Op.run C₀ (.addBlock (rewardBlock 1)) (migrate C₀) = .ok rewardStore ∧
    rewardStore.blocks = (rewardChain 1).map Block.row ∧ rewardStore.StoredChain C₀ (rewardChain 1) ∧
    rewardStore.ledgerAt (hashAt 1) = rewardLedger 1 ∧ rewardStore.txs = [] := by
  have hc : (migrate C₀).StoredChain C₀ ([] ++ [rewardBlock 0]) :=
    Store.migrate_storedChain genesis_hash_ne
  have hh : (migrate C₀).hashes = (List.range 1).map hashAt := by
    rw [Store.migrate_hashes genesis_hash_ne]
    exact congrArg (· :: []) (rewardBlock_hash 0)
  obtain ⟨S, hadd, -, hbl, hsc, hL, htx⟩ := Reachable.addBlock_step .refl hc (rewardBlock_hashed 1)
    (by rw [hh, rewardBlock_hash]; exact hashAt_not_mem (by norm_num))
    (by rw [rewardBlock_hash]; exact hashAt_ne 1) (newBlock_validOn 0 miner none (by decide) (by simp))
    (by rw [rewardBlock_txs]; trivial)
  have hrun : Op.run C₀ (.addBlock (rewardBlock 1)) (migrate C₀) = .ok S := by
    rw [Op.run, rewardBlock_hashed]; exact hadd
  rw [rewardStore, Op.apply_of_run hrun]
  refine ⟨hrun, by rw [hbl]; simp [migrate, genesis_hash_ne]; rfl, hsc, ?_, by rw [htx]; rfl⟩
  rw [← rewardBlock_hash 1, hL, ← rewardLedger_succ 0, rewardLedger_zero]
  rfl

theorem rewardStore_reachable : Reachable C₀ rewardStore := .single (.commit _ rewardStore_spec.1)

/-- `AddBlock(spendBlock)` commits on `rewardStore`. -/
theorem spendStore_spec : Op.run C₀ (.addBlock spendBlock) rewardStore = .ok spendStore ∧
    spendStore.blocks = [(rewardBlock 0).row, (rewardBlock 1).row, spendBlock.row] ∧
    spendStore.StoredChain C₀ ([rewardBlock 0, rewardBlock 1] ++ [spendBlock]) ∧
    spendStore.ledgerAt spendBlock.hash = (rewardLedger 1).applyBlock spendBlock ∧
    spendStore.txs = [(spendTx.updateHash C₀).row] := by
  obtain ⟨-, hbl, hsc, hL, htx⟩ := rewardStore_spec
  have hh := (Store.hashes_eq_of_blocks hbl).trans (rewardChain_hashes 1)
  have hv : spendBlock.ValidOn C₀ (rewardBlock 1) := newBlock_validOn 1 miner (some [spendTx])
    (by decide) (by simpa using ⟨spendTx_amountsOk, rfl⟩)
  have hbal : (rewardStore.ledgerAt (rewardBlock 1).hash).bal (Bytes.data miner) = 1000 := by
    rw [rewardBlock_hash, hL, rewardLedger_miner]; norm_num
  have ht : (rewardStore.ledgerAt (rewardBlock 1).hash).TxsOk C₀ spendBlock.txs := by
    refine ⟨⟨⟨spendTx_amountsOk, rfl⟩, ?_, ?_, by rw [rewardBlock_hash, hL]; exact List.not_mem_nil _,
      toyMd5_ne _⟩, trivial⟩
    · show Int64.InRange ((rewardStore.ledgerAt (rewardBlock 1).hash).bal (Bytes.data miner))
      rw [hbal]; exact ⟨by norm_num, by norm_num⟩
    · show _ ≤ (rewardStore.ledgerAt (rewardBlock 1).hash).bal (Bytes.data miner)
      rw [spendTx_required, hbal]; norm_num
  have hb : spendBlock.updateHash C₀ = spendBlock := Block.updateHash_idem C₀ _
  obtain ⟨S, hadd, -, hbl', hsc', hL', htx'⟩ := rewardStore_reachable.addBlock_step (rewardChain_eq 1 ▸ hsc) hb
    (by rw [hh, spendBlock_hash]; exact hashAt_not_mem (by norm_num))
    spendBlock_hash_ne hv ht
  have hrun : Op.run C₀ (.addBlock spendBlock) rewardStore = .ok S := by
    rw [Op.run, hb]; exact hadd
  rw [spendStore, Op.apply_of_run hrun]
  refine ⟨hrun, by rw [hbl', hbl]; rfl, hsc', by rw [hL', rewardBlock_hash, hL], ?_⟩
  rw [htx', spendBlock_txs, List.foldl_cons, List.foldl_nil, Store.addTx_txs, htx,
    if_neg (by simp [spendTx_hash_ne_empty])]
  rfl

theorem spendStore_reachable : Reachable C₀ spendStore :=
  rewardStore_reachable.tail (.commit _ spendStore_spec.1)

/-- `AddTx(pendingTx)` commits on `spendStore`. -/
theorem pendingStore_spec : Op.run C₀ (.addTx pendingTx) spendStore = .ok pendingStore ∧
    pendingStore = spendStore.addTx pendingTx ∧
    spendStore.bestRow = some spendBlock.row ∧
    (spendStore.ledgerAt spendBlock.hash).TxOk C₀ pendingTx := by
  obtain ⟨-, hbl, -, hL, -⟩ := spendStore_spec
  have hbest : spendStore.bestRow = some spendBlock.row := by
    refine Store.bestRow_of_max
      (show _ = [(rewardBlock 0).row, (rewardBlock 1).row] ++ [spendBlock.row] from hbl) fun x hx => ?_
    simp only [List.mem_cons, List.mem_singleton, List.not_mem_nil, or_false] at hx
    rcases hx with rfl | rfl <;> rw [rewardBlock_row_height (by norm_num), spendBlock_row_height] <;>
      norm_num
  have htip : bestBlockHash spendStore = .ok spendBlock.hash := by
    simp only [bestBlockHash, hbest]
    rfl
  have hok : (spendStore.ledgerAt spendBlock.hash).TxOk C₀ pendingTx := by
    have hbal : (spendStore.ledgerAt spendBlock.hash).bal (Bytes.data miner) = 1999 := by
      rw [hL, spendLedger_miner]
    refine ⟨⟨pendingTx_amountsOk, rfl⟩, ?_, ?_, ?_, pendingTx_hash_ne_empty⟩
    · show Int64.InRange ((spendStore.ledgerAt spendBlock.hash).bal (Bytes.data miner))
      rw [hbal]; exact ⟨by norm_num, by norm_num⟩
    · show _ ≤ (spendStore.ledgerAt spendBlock.hash).bal (Bytes.data miner)
      rw [pendingTx_required, hbal]; norm_num
    · rw [hL, spendLedger_inc, List.mem_singleton]
      exact pendingTx_hash_ne
  have hrun := Op.run_addTx_of_txOk spendStore_reachable.inv.wf pendingTx_hashed htip hok
  rw [pendingStore, Op.apply_of_run hrun]
  exact ⟨hrun, rfl, hbest, hok⟩

/-- The best block of `rewardStore` is `rewardBlock 1`. -/
theorem rewardStore_bestRow : rewardStore.bestRow = some (rewardBlock 1).row := by
  refine Store.bestRow_of_max
    (show _ = [(rewardBlock 0).row] ++ [(rewardBlock 1).row] from rewardStore_spec.2.1) fun x hx => ?_
  rw [List.mem_singleton.1 hx, rewardBlock_row_height (by norm_num),
    rewardBlock_row_height (by norm_num)]
  norm_num

/-- `BestBlock` of `rewardStore` is `rewardBlock 1`. -/
theorem rewardStore_bestBlock : DB.bestBlock C₀ rewardStore = .ok (rewardBlock 1) := by
  rw [DB.bestBlock, rewardStore_bestRow]
  exact Store.decodeBlock_row (rewardBlock_hashed 1)

theorem pendingStore_reachable : Reachable C₀ pendingStore :=
  spendStore_reachable.tail (.commit _ pendingStore_spec.1)

/-- `AddTx` leaves the blocks of `spendStore`. -/
theorem pendingStore_blocks :
    pendingStore.blocks = [(rewardBlock 0).row, (rewardBlock 1).row, spendBlock.row] := by
  rw [pendingStore_spec.2.1, Store.addTx_blocks, spendStore_spec.2.1]

/-- The best row of `pendingStore` is that of `spendBlock`. -/
theorem pendingStore_bestRow : pendingStore.bestRow = some spendBlock.row := by
  rw [pendingStore_spec.2.1, Store.bestRow, Store.addTx_blocks, ← Store.bestRow]
  exact pendingStore_spec.2.2.1

/-- The best block of `pendingStore` is `spendBlock`. -/
theorem pendingStore_bestBlock : DB.bestBlock C₀ pendingStore = .ok spendBlock := by
  rw [DB.bestBlock, pendingStore_bestRow]
  exact Store.decodeBlock_row (Block.updateHash_idem C₀ _)

/-- The best block of `spendStore` is `spendBlock`. -/
theorem spendStore_bestBlock : DB.bestBlock C₀ spendStore = .ok spendBlock := by
  rw [DB.bestBlock, pendingStore_spec.2.2.1]
  exact Store.decodeBlock_row (Block.updateHash_idem C₀ _)

/-- `AddTx` leaves the ledger of `spendBlock`. -/
theorem pendingStore_ledger :
    pendingStore.ledgerAt spendBlock.hash = (rewardLedger 1).applyBlock spendBlock := by
  rw [pendingStore_spec.2.1, Store.addTx_ledgerAt, spendStore_spec.2.2.2.1]

/-- `pendingTx` is the one transfer pending on `spendBlock`: `spendTx` is included there. -/
theorem pendingStore_pendingRows : pendingStore.pendingRows spendBlock.hash = [pendingTx.row] := by
  have hinc : pendingStore.includedAt spendBlock.hash = [(spendTx.updateHash C₀).hash] := by
    rw [← Store.ledgerAt_inc, pendingStore_ledger, spendLedger_inc]
  have htxs : pendingStore.txs = [(spendTx.updateHash C₀).row, pendingTx.row] := by
    rw [pendingStore_spec.2.1, Store.addTx_txs, spendStore_spec.2.2.2.2,
      if_neg (by simpa [SignedTx.row] using ⟨pendingTx_hash_ne_empty, pendingTx_hash_ne⟩)]
    rfl
  have hsel : ∀ t, t ≠ emptyHash → (pendingStore.selectIncluded spendBlock.hash t = true ↔
      t = (spendTx.updateHash C₀).hash) := fun t ht => by
    rw [Store.selectIncluded_iff spendBlock_hash_ne ht, hinc, List.mem_singleton]
  have h₁ : pendingStore.selectIncluded spendBlock.hash (spendTx.updateHash C₀).row.hash = true :=
    (hsel _ spendTx_hash_ne_empty).2 rfl
  have h₂ : pendingStore.selectIncluded spendBlock.hash pendingTx.row.hash = false :=
    Bool.eq_false_iff.2 fun h => pendingTx_hash_ne ((hsel _ pendingTx_hash_ne_empty).1 h)
  rw [Store.pendingRows, htxs, List.filter_cons, List.filter_cons, List.filter_nil, h₁, h₂]
  rfl

/-- `pendingTx` passes on the ledger of `spendBlock`. -/
theorem pendingTx_txsOk : (pendingStore.ledgerAt spendBlock.hash).TxsOk C₀ [pendingTx] := by
  rw [pendingStore_spec.2.1, Store.addTx_ledgerAt]
  exact ⟨pendingStore_spec.2.2.2, trivial⟩

/-! ## The last block -/

end LongChain

open Store LongChain

/-! ## Ledgers -/

namespace LongChain

end LongChain

/-! ## Validity -/

/-- Every stored block but the genesis block passed `Block.Valid` on a stored parent, and only
the genesis block has the `NULL` parent hash. -/
theorem stored_block_valid {C : Crypto} {S : Store} (hS : Reachable C S) :
    ∀ r ∈ S.blocks, ∃ B, decodeBlock C r.block = .ok B ∧ B.hash = r.hash ∧
      (B.previousHash = emptyHash ↔ B = genesisBlock C) ∧
      (B ≠ genesisBlock C → ∃ rp ∈ S.blocks, ∃ P, decodeBlock C rp.block = .ok P ∧
        P.hash = B.previousHash ∧ B.height = P.height + 1 ∧ B.hash.valid = true ∧
        0 ≤ B.rewardOutput.amount.val ∧ B.rewardOutput.amount.val ≤ 1000 ∧
        B.txs.length ≤ 100 ∧ ∀ s ∈ B.txs, s.valid C = .ok ()) := by
  have hI := hS.inv
  intro r hr
  obtain ⟨chain, b, rfl, hsc, -⟩ := hI.chain_of_mem hr
  refine ⟨b, decodeBlock_row (hsc.hashed b (by simp)), rfl, ?_, ?_⟩
  · rw [← hsc.eq_nil_iff hI]
    rcases hsc.valid.snoc_inv with ⟨rfl, rfl⟩ | ⟨c, p, rfl, -, hv, -⟩
    · exact ⟨fun _ => rfl, fun _ => rfl⟩
    · refine ⟨fun h => absurd h (List.append_ne_nil_of_right_ne_nil _ (List.cons_ne_nil _ _)),
        fun h => absurd ?_ (hI.wf.hash_ne _ (hsc.stored p (by simp)))⟩
      show p.hash = emptyHash
      rw [← hv.previousHash_eq, h]
      rfl
  · intro hne
    rcases hsc.valid.snoc_inv with ⟨-, rfl⟩ | ⟨c, p, rfl, -, hv, -⟩
    · exact absurd rfl hne
    · exact ⟨p.row, hsc.stored p (by simp), p, decodeBlock_row (hsc.hashed p (by simp)),
        hv.previousHash_eq.symm, hv.height_eq, hv.hash_valid, hv.reward_nonneg, hv.reward_le,
        hv.length_le, fun s hs => SignedTx.valid_eq_ok.2 (hv.txs_valid s hs)⟩

theorem stored_block_valid_pendingStore : Reachable C₀ pendingStore ∧
    ∀ r ∈ pendingStore.blocks, ∃ B, decodeBlock C₀ r.block = .ok B ∧ B.hash = r.hash ∧
      (B.previousHash = emptyHash ↔ B = genesisBlock C₀) ∧
      (B ≠ genesisBlock C₀ → ∃ rp ∈ pendingStore.blocks, ∃ P,
        decodeBlock C₀ rp.block = .ok P ∧
        P.hash = B.previousHash ∧ B.height = P.height + 1 ∧ B.hash.valid = true ∧
        0 ≤ B.rewardOutput.amount.val ∧ B.rewardOutput.amount.val ≤ 1000 ∧
        B.txs.length ≤ 100 ∧ ∀ s ∈ B.txs, s.valid C₀ = .ok ()) :=
  ⟨pendingStore_reachable, stored_block_valid pendingStore_reachable⟩

/-! ## Coins -/

namespace LongChain

end LongChain

end Cryptopuff
