import Cryptopuff.Sync
import Cryptopuff.Hashing

/-!
# `DB.Blocks` and the height counter

`DB.Blocks()` of a reachable store that holds the genesis block is the chain of the best block,
newest first, and the recursive walk lists exactly its rows (`blocks_best_chain`). Its heights
are its indices only below `2^63`.

`NewBlock` sets a block's height to its parent's plus one in Go's wrapping `int64`, so along a
chain of more than `2^64` blocks the heights repeat. The primitives here are a toy `Crypto`
whose digest keeps a header's height and an epoch, which it takes from the parent's hash and
bumps when the height's bytes are zero: every block of such a chain has its own hash and the
store takes the chain block by block.

The block at index `K = 2^64 + 2^63 - 1` has height `2^63 - 1`, the greatest `int64`, and comes
after the block of the same height at index `2^63 - 1`, so it is the best block. `DB.Blocks()`
then lists `K + 1` rows from a best block of height `2^63 - 1`
(`HeightWrap.blocks_longer_than_height`).
-/

namespace Cryptopuff

namespace HeightWrap

/-- The epoch of a header: byte 4 of the parent's hash, one more when the eight bytes of the
height are zero. -/
def epochOf (x : List UInt8) : UInt8 :=
  x.getD 4 0 + if (x.drop 16).take 8 = List.replicate 8 0 then 1 else 0

/-- The digest of the construction: the marker `0 0 0 1`, the epoch, three zeros, and the
height's bytes. -/
def epochMd5 (x : List UInt8) : Hash :=
  ⟨[0, 0, 0, 1, epochOf x, 0, 0, 0] ++ ((x.drop 16) ++ List.replicate 8 0).take 8, by simp⟩

/-- The primitives of the construction; no transfer is signed. -/
def C₄ : Crypto where
  md5 := epochMd5
  parsePKCS1PublicKey _ := none
  marshalPKCS1PublicKey _ := []
  verifyPSS _ _ _ := false

/-- The chain: the genesis block, then empty blocks that reward no one. -/
def wrapBlock : Nat → Block
  | 0 => genesisBlock C₄
  | k + 1 => newBlock C₄ (wrapBlock k) 0 none 0 none

/-- The chain up to index `k`. -/
def wrapChain (k : Nat) : List Block := (List.range (k + 1)).map wrapBlock

/-- The hash of the block at index `k < 2^65`: epoch `1` before the height first wraps,
`2` after. -/
def hashAt (k : Nat) : Hash :=
  ⟨[0, 0, 0, 1, if k < 2 ^ 64 then 1 else 2, 0, 0, 0] ++ be64 (Int64.wrap k), by
    rw [List.length_append, length_be64]; rfl⟩

/-- The bytes of a wrapped height are those of the index modulo `2^64`. -/
theorem be64_wrap (n : Nat) : be64 (Int64.wrap n) = beBytes 8 (n % 2 ^ 64) := by
  have h := Int.bmod_emod (x := (n : Int)) (m := 2 ^ 64)
  rw [Nat.cast_pow, Nat.cast_ofNat] at h
  have hval : ((Int64.wrap n).val % 2 ^ 64).toNat = n % 2 ^ 64 := by
    unfold Int64.wrap
    dsimp only
    rw [h]
    omega
  rw [be64, hval]

theorem mod_lt_256_pow (n : Nat) : n % 2 ^ 64 < 256 ^ 8 :=
  (Nat.mod_lt n (by norm_num)).trans_le (by norm_num)

/-- The height's bytes are zero exactly at the multiples of `2^64`. -/
theorem be64_wrap_eq_zero (n : Nat) : be64 (Int64.wrap n) = List.replicate 8 0 ↔ n % 2 ^ 64 = 0 := by
  rw [be64_wrap, show List.replicate 8 (0 : UInt8) = beBytes 8 0 from rfl]
  exact ⟨beBytes_inj (mod_lt_256_pow n) (by norm_num), fun h => by rw [h]⟩

/-- What the digest keeps of a header: byte 4 of the parent's hash, bumped at a zero height,
and the height. -/
theorem epochMd5_header (b : Block) :
    (epochMd5 (b.header C₄)).bytes = [0, 0, 0, 1, b.previousHash.bytes.getD 4 0 +
      (if be64 b.height = List.replicate 8 0 then 1 else 0), 0, 0, 0] ++ be64 b.height := by
  have h16 : b.previousHash.bytes.length = 16 := b.previousHash.length_eq
  have h8 : (be64 b.height).length = 8 := length_be64 _
  obtain ⟨rest, hdrop⟩ : ∃ rest, (b.header C₄).drop 16 = be64 b.height ++ rest :=
    ⟨_, by simp only [Block.header, List.append_assoc]; exact List.drop_left' h16⟩
  have hget : (b.header C₄).getD 4 0 = b.previousHash.bytes.getD 4 0 := by
    simp only [Block.header, List.append_assoc, List.getD_eq_getElem?_getD]
    rw [List.getElem?_append_left (by omega)]
  simp only [epochMd5, epochOf, hdrop, hget, List.append_assoc, List.take_left' h8]

/-- No hash of the chain is the `NULL` hash. -/
theorem hashAt_ne (k : Nat) : hashAt k ≠ emptyHash := fun h => by
  have := congrArg (fun h => h.bytes.get? 3) h
  simp [hashAt, emptyHash] at this

/-- Below `2^65` the epoch and the height's bytes tell the indices apart. -/
theorem hashAt_inj {k k' : Nat} (hk : k < 2 ^ 65) (hk' : k' < 2 ^ 65) (h : hashAt k = hashAt k') :
    k = k' := by
  obtain ⟨he, hw⟩ := List.append_inj (congrArg Hash.bytes h) rfl
  rw [be64_wrap, be64_wrap] at hw
  have hm := beBytes_inj (mod_lt_256_pow k) (mod_lt_256_pow k') hw
  simp only [List.cons.injEq, true_and, and_true] at he
  split_ifs at he <;> first | omega | exact absurd he (by decide)

/-- The block at index `k` has height `k`, wrapped to `int64`. -/
theorem wrapBlock_height (k : Nat) : (wrapBlock k).height = Int64.wrap k := by
  induction k with
  | zero => rfl
  | succ k ih => exact LongChain.height_succ ih

/-- The hash `UpdateHash` gives the block at index `k`. -/
theorem wrapBlock_hash : ∀ k, k < 2 ^ 65 → (wrapBlock k).hash = hashAt k
  | 0, _ => by
      apply Hash.ext_bytes
      show (epochMd5 (Block.header C₄ _)).bytes = _
      rw [epochMd5_header]
      rfl
  | k + 1, hk => by
      have hprev := wrapBlock_hash k (by omega)
      apply Hash.ext_bytes
      show (epochMd5 (Block.header C₄ _)).bytes = _
      rw [epochMd5_header]
      simp only [hashAt]
      rw [show (wrapBlock k).height + 1 = Int64.wrap (k + 1 : Nat) from
        LongChain.height_succ (wrapBlock_height k), hprev]
      simp only [hashAt, be64_wrap_eq_zero]
      congr 2
      rcases Nat.lt_or_ge (k + 1) (2 ^ 64) with h | h
      · rw [if_pos (by omega), if_neg (by omega), if_pos h]; rfl
      · rcases Nat.lt_or_ge k (2 ^ 64) with h' | h'
        · rw [if_pos h', if_pos (by omega), if_neg (by omega)]; rfl
        · rw [if_neg (by omega), if_neg (by omega), if_neg (by omega)]; rfl

/-- The blocks of the chain carry the hash `UpdateHash` recomputes. -/
theorem wrapBlock_hashed (k : Nat) : (wrapBlock k).updateHash C₄ = wrapBlock k := by
  cases k <;> exact Block.updateHash_idem C₄ _

theorem wrapBlock_txs (k : Nat) : (wrapBlock k).txs = [] := by
  cases k <;> rfl

/-- Each block of the chain is valid on the one before it. -/
theorem wrapBlock_validOn {k : Nat} (hk : k + 1 < 2 ^ 65) :
    (wrapBlock (k + 1)).ValidOn C₄ (wrapBlock k) where
  previousHash_eq := rfl
  height_eq := rfl
  hash_valid := by rw [wrapBlock_hash _ hk]; rfl
  reward_nonneg := le_refl _
  reward_le := show (0 : Int64).val ≤ maxBlockReward by decide
  length_le := by rw [wrapBlock_txs]; decide
  txs_valid := fun _ h => absurd (wrapBlock_txs (k + 1) ▸ h) (List.not_mem_nil _)

theorem wrapChain_succ (k : Nat) : wrapChain (k + 1) = wrapChain k ++ [wrapBlock (k + 1)] := by
  rw [wrapChain, List.range_succ, List.map_append]
  rfl

/-- The chain up to `k` is the chain before `k`, then the block at `k`. -/
theorem wrapChain_eq (k : Nat) :
    wrapChain k = (List.range k).map wrapBlock ++ [wrapBlock k] := by
  rw [wrapChain, List.range_succ, List.map_append]
  rfl

/-- The block at index `k` has a hash no earlier block has. -/
theorem hashAt_not_mem {k : Nat} (hk : k < 2 ^ 65) : hashAt k ∉ (List.range k).map hashAt := by
  simp only [List.mem_map, List.mem_range, not_exists, not_and]
  exact fun j hj he => by have := hashAt_inj (by omega) hk he; omega

/-- The hashes of the chain up to `k`. -/
theorem wrapChain_hashes {k : Nat} (hk : k < 2 ^ 65) :
    (wrapChain k).map Block.hash = (List.range (k + 1)).map hashAt := by
  rw [wrapChain, List.map_map]
  exact List.map_congr_left fun j hj => wrapBlock_hash j (by simp at hj; omega)

/-- The stores of the chain are reachable. -/
theorem wrapChain_reachable : ∀ k, k < 2 ^ 65 → ∃ S, Reachable C₄ S ∧
    S.blocks = (wrapChain k).map Block.row ∧ S.StoredChain C₄ (wrapChain k)
  | 0, _ => by
      have hG : (genesisBlock C₄).hash ≠ emptyHash := (wrapBlock_hash 0 (by norm_num)).trans_ne (hashAt_ne 0)
      exact ⟨migrate C₄, .refl, by simp [migrate, hG]; rfl, Store.migrate_storedChain hG⟩
  | k + 1, hk => by
      obtain ⟨S, hS, hbl, hsc⟩ := wrapChain_reachable k (by omega)
      have hh := (Store.hashes_eq_of_blocks hbl).trans (wrapChain_hashes (by omega))
      obtain ⟨S', -, hS', hbl', hsc', -⟩ := hS.addBlock_step (wrapChain_eq k ▸ hsc)
        (wrapBlock_hashed (k + 1)) (by rw [hh, wrapBlock_hash _ hk]; exact hashAt_not_mem hk)
        (by rw [wrapBlock_hash _ hk]; exact hashAt_ne _) (wrapBlock_validOn hk) trivial
      exact ⟨S', hS', by rw [hbl', hbl, wrapChain_succ, List.map_append]; rfl,
        by rwa [wrapChain_succ, wrapChain_eq k]⟩

/-- The height of the block at index `2^64 + 2^63 - 1`. -/
theorem wrap_last : (Int64.wrap ((2 ^ 64 + 2 ^ 63 - 1 : Nat) : Int)).val = 2 ^ 63 - 1 := by
  unfold Int64.wrap
  simp only [Int.bmod_def]
  norm_num

end HeightWrap

open Store

variable {C : Crypto}

/-- `DB.Blocks()` of a reachable store that holds the genesis block: the chain of the best
block, newest first. Oldest first it starts at the genesis block, each block names the one
before it as its parent and the block at index `i` has height `i` in Go's wrapping `int64`; the
recursive walk lists exactly its rows. While the chain has fewer than `2^63` blocks before the
best one, heights are indices and the walk lists `Height + 1` rows. -/
theorem blocks_best_chain {S : Store} (hS : Reachable C S) (hG : (genesisBlock C).hash ≠ emptyHash) :
    ∃ l b, DB.blocks C S = .ok (some (l ++ [b]).reverse) ∧ b.row ∈ S.blocks ∧
      S.bestRow = some b.row ∧ (∀ r ∈ S.blocks, r.height ≤ b.row.height) ∧
      (l ++ [b]).head? = some (genesisBlock C) ∧
      (l ++ [b]).Chain' (fun p x => x.previousHash = p.hash) ∧
      (∀ i : Fin (l ++ [b]).length, ((l ++ [b]).get i).height = Int64.wrap i) ∧
      S.chainRows S.blocks.length b.row = (l ++ [b]).reverse.map Block.row ∧
      (l.length < 2 ^ 63 →
        (∀ i : Fin (l ++ [b]).length, ((l ++ [b]).get i).height.val = i) ∧
        ((l ++ [b]).length : Int) = b.height.val + 1) := by
  have hI := hS.inv
  obtain ⟨l, b, hc, hbest⟩ := hI.bestChain (List.ne_nil_of_mem (hS.genesis_mem hG))
  have hh := hc.valid.height_get
  refine ⟨l, b, hI.blocks_eq hc hbest, bestRow_mem hbest, hbest, bestRow_max hbest,
    hc.valid.head, hc.valid.links, hh, hI.chainRows_eq hc (hc.length_lt hI), fun hl => ⟨fun i => ?_, ?_⟩⟩
  · rw [hh i, Int64.wrap_val ⟨by omega, by have := i.2; simp at this; omega⟩]
  · rw [hc.valid.height_last, Int64.wrap_val ⟨by omega, by omega⟩]
    simp

theorem blocks_best_chain_pendingStore : Reachable LongChain.C₀ LongChain.pendingStore ∧
    (genesisBlock LongChain.C₀).hash ≠ emptyHash ∧
    ∃ l b, DB.blocks LongChain.C₀ LongChain.pendingStore = .ok (some (l ++ [b]).reverse) ∧
      b.row ∈ LongChain.pendingStore.blocks ∧ LongChain.pendingStore.bestRow = some b.row ∧
      (∀ r ∈ LongChain.pendingStore.blocks, r.height ≤ b.row.height) ∧
      (l ++ [b]).head? = some (genesisBlock LongChain.C₀) ∧
      (l ++ [b]).Chain' (fun p x => x.previousHash = p.hash) ∧
      (∀ i : Fin (l ++ [b]).length, ((l ++ [b]).get i).height = Int64.wrap i) ∧
      LongChain.pendingStore.chainRows LongChain.pendingStore.blocks.length b.row =
        (l ++ [b]).reverse.map Block.row ∧
      (l.length < 2 ^ 63 →
        (∀ i : Fin (l ++ [b]).length, ((l ++ [b]).get i).height.val = i) ∧
        ((l ++ [b]).length : Int) = b.height.val + 1) :=
  ⟨LongChain.pendingStore_reachable, LongChain.genesis_hash_ne,
    blocks_best_chain LongChain.pendingStore_reachable LongChain.genesis_hash_ne⟩

namespace HeightWrap

/-- A reachable store whose `DB.Blocks()` lists more rows than one plus the best height:
`2^64 + 2^63` rows, from a best block of height `2^63 - 1`. -/
theorem blocks_longer_than_height : ∃ S, Reachable C₄ S ∧ ∃ b L,
    DB.blocks C₄ S = .ok (some (b :: L)) ∧ S.bestRow = some b.row ∧
    b.height.val = 2 ^ 63 - 1 ∧ ((b :: L).length : Int) ≠ b.height.val + 1 := by
  obtain ⟨S, hS, hbl, hsc⟩ := wrapChain_reachable (2 ^ 64 + 2 ^ 63 - 1) (by norm_num)
  have hval : (wrapBlock (2 ^ 64 + 2 ^ 63 - 1)).height.val = 2 ^ 63 - 1 := by
    rw [wrapBlock_height, wrap_last]
  have hbest : S.bestRow = some (wrapBlock (2 ^ 64 + 2 ^ 63 - 1)).row := by
    refine Store.bestRow_of_max (by rw [hbl, wrapChain_eq, List.map_append]; rfl) fun x hx => ?_
    obtain ⟨y, -, rfl⟩ := List.mem_map.1 hx
    rw [Block.row_height, Block.row_height, hval]
    exact Int.le_sub_one_of_lt y.height.lt_max
  have hsc' := wrapChain_eq (2 ^ 64 + 2 ^ 63 - 1) ▸ hsc
  refine ⟨S, hS, wrapBlock (2 ^ 64 + 2 ^ 63 - 1),
    ((List.range (2 ^ 64 + 2 ^ 63 - 1)).map wrapBlock).reverse,
    by rw [hS.inv.blocks_eq hsc' hbest, List.reverse_append, List.reverse_singleton,
      List.singleton_append], hbest, hval, ?_⟩
  rw [hval, List.length_cons, List.length_reverse, List.length_map, List.length_range]
  norm_num

end HeightWrap

end Cryptopuff
