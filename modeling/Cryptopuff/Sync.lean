import Cryptopuff.StoredBlocks

/-!
# Syncing a peer's chain

`fetchBlocks` downloads a peer's best chain, newest block first, and hands it to
`DB.AddBlocks`: the `/api/blocks` handler writes `DB.Blocks()` with `json.Encoder`
(`blocksBody`), and `PeerClient.Blocks` decodes it and hashes each block
(`PeerClient.blocks`). `AddBlocks` finds the first block it has stored and adds the ones
before it, oldest first.

`DB.Blocks()` of a reachable store is its best chain, reversed (`Store.Inv.blocks_eq`), and
the wire gives it back unchanged (`PeerClient.blocks_body`). Two nodes hold one chain below
a block they both store as long as no row of one shares a hash with a different row of the
other (`Store.storedChain_agree`). Then `AddBlocks` of the peer's chain succeeds, commits
exactly the blocks the node lacks, and leaves every block of the chain with the peer's
ledger (`sync_from_peer`). A hash collision breaks it: under the digest of
`Cryptopuff.LongChain`, which reads a header's height and half its nonce, two different
blocks at height 1 share a hash, and a peer's block on one is refused on the other
(`hash_collision_sync_fails`).
-/

namespace Cryptopuff

/-! ## The wire -/

/-- What the `/api/blocks` handler writes: `json.NewEncoder(w).Encode(blocks)`, the JSON and
a newline. -/
def blocksBody (blocks : Option (List Block)) : List Char :=
  Json.render (Block.listToJson blocks) ++ ['\n']

/-- `PeerClient.Blocks`: decode the body into a `[]Block`, then `UpdateHash` each block. -/
def PeerClient.blocks (C : Crypto) (body : List Char) : Except String (Option (List Block)) :=
  match Json.parse body with
  | some j =>
      match Block.decodeList j none with
      | .ok bs => .ok (bs.map (List.map (Block.updateHash C)))
      | .error e => .error ("cryptopuff: failed to unmarshal JSON: " ++ e)
  | none =>
      .error "cryptopuff: failed to unmarshal JSON: invalid character looking for beginning of value"

theorem Block.map_updateHash_of_hashed {C : Crypto} {l : List Block}
    (hl : ∀ b ∈ l, b.updateHash C = b) : l.map (Block.updateHash C) = l :=
  (List.map_congr_left hl).trans (List.map_id' l)

/-- Hashed blocks cross the wire unchanged. -/
theorem PeerClient.blocks_body (C : Crypto) {l : List Block} (hl : ∀ b ∈ l, b.updateHash C = b) :
    PeerClient.blocks C (blocksBody (some l)) = .ok (some l) := by
  simp only [PeerClient.blocks, blocksBody, Json.parse_render_newline,
    Block.decodeList_listToJson, Option.map_some', List.map_map]
  congr 2
  exact (List.map_congr_left fun b _ => by
    simp only [Function.comp_apply, Block.updateHash_clearHashes]).trans
    (Block.map_updateHash_of_hashed hl)

/-! ## The shape of a valid chain -/

namespace ValidChain

variable {C : Crypto} {l : List Block}

/-- Each block of a valid chain names the one before it as its parent. -/
theorem links (hc : ValidChain C l) : l.Chain' fun p b => b.previousHash = p.hash := by
  induction hc with
  | genesis => exact List.chain'_singleton _
  | snoc _ hv _ ih =>
      refine ih.append (List.chain'_singleton _) fun x hx y hy => ?_
      rw [List.getLast?_concat, Option.mem_some_iff] at hx
      rw [List.head?_cons, Option.mem_some_iff] at hy
      subst hx hy
      exact hv.previousHash_eq

/-- The block at index `i` of a valid chain has height `i`, in Go's wrapping `int64`. -/
theorem height_get (hc : ValidChain C l) (i : Fin l.length) : (l.get i).height = Int64.wrap i := by
  have hsplit : l.take i ++ [l[i.1]] = l.take (i + 1) := by
    rw [← List.concat_eq_append]; exact List.take_concat_get l i i.2
  have hv : ValidChain C (l.take i ++ [l[i.1]] ++ l.drop (i + 1)) := by
    rwa [hsplit, List.take_append_drop]
  rw [List.get_eq_getElem,
    (hv.of_append (List.append_ne_nil_of_right_ne_nil _ (List.cons_ne_nil _ _))).height_last, List.length_take,
    min_eq_left i.2.le]

end ValidChain

namespace Store

variable {C : Crypto} {S : Store}

/-! ## `DB.Blocks` -/

/-- The recursive query of `DB.Blocks` walks a stored chain from its last block back to the
genesis block, whose `NULL` parent hash matches no row. -/
theorem Inv.chainRows_eq (hI : S.Inv C) {chain : List Block} :
    ∀ {b : Block} {fuel : Nat}, S.StoredChain C (chain ++ [b]) → chain.length < fuel →
      S.chainRows fuel b.row = (chain ++ [b]).reverse.map Block.row := by
  induction chain using List.reverseRecOn with
  | nil =>
      intro b fuel hc hf
      obtain ⟨fuel, rfl⟩ : ∃ f, fuel = f + 1 := ⟨fuel - 1, by simp at hf; omega⟩
      have hnone : S.selectBlock b.row.previousHash = none := by
        rw [show b.row.previousHash = emptyHash from (hc.eq_nil_iff hI).1 rfl]
        exact List.find?_eq_none.2 fun r _ => by simp [Hash.sqlEq]
      simp [chainRows, hnone]
  | append_singleton c p ih =>
      intro b fuel hc hf
      obtain ⟨fuel, rfl⟩ : ∃ f, fuel = f + 1 := ⟨fuel - 1, by simp at hf; omega⟩
      rcases hc.valid.snoc_inv with ⟨h, -⟩ | ⟨c', p', h, hv, hbv, -⟩
      · exact absurd h (List.append_ne_nil_of_right_ne_nil _ (List.cons_ne_nil _ _))
      obtain ⟨rfl, h2⟩ := List.append_inj' h rfl
      cases List.singleton_inj.1 h2
      have hp := hc.stored p (by simp)
      have hsel : S.selectBlock b.row.previousHash = some p.row := by
        rw [show b.row.previousHash = p.hash from hbv.previousHash_eq]
        exact selectBlock_of_mem hI.wf.hashes_nodup hp (hI.wf.hash_ne _ hp)
      simp only [chainRows, hsel]
      rw [ih (hc.dropLast rfl hv) (show c.length < fuel by simp at hf; omega)]
      simp

/-- Decoding the rows of hashed blocks gives the blocks back. -/
theorem mapM_decodeBlock_row : ∀ {l : List Block}, (∀ b ∈ l, b.updateHash C = b) →
    (l.map Block.row).mapM (fun r => decodeBlock C r.block) = .ok l
  | [], _ => rfl
  | b :: l, h => by
      simp only [List.map_cons, List.mapM_cons, decodeBlock_row (h b (List.mem_cons_self _ _)),
        mapM_decodeBlock_row fun x hx => h x (.tail _ hx)]
      rfl

/-- A stored chain has no more blocks than the store has rows. -/
theorem StoredChain.length_lt (hI : S.Inv C) {chain : List Block} {b : Block}
    (hc : S.StoredChain C (chain ++ [b])) : chain.length < S.blocks.length := by
  have hnd : ((chain ++ [b]).map Block.row).Nodup :=
    List.Nodup.of_map BlockRow.hash (by rw [List.map_map]; exact hc.hashes_nodup hI)
  have := (List.subperm_of_subset hnd fun r hr => by
    obtain ⟨x, hx, rfl⟩ := List.mem_map.1 hr
    exact hc.stored x hx).length_le
  simp at this
  omega

/-- `DB.Blocks()` lists the chain of the best block, newest first. -/
theorem Inv.blocks_eq (hI : S.Inv C) {chain : List Block} {b : Block}
    (hc : S.StoredChain C (chain ++ [b])) (hbest : S.bestRow = some b.row) :
    DB.blocks C S = .ok (some (chain ++ [b]).reverse) := by
  simp only [DB.blocks, hbest]
  rw [hI.chainRows_eq hc (hc.length_lt hI),
    mapM_decodeBlock_row fun x hx => hc.hashed x (List.mem_reverse.1 hx)]
  rfl

/-- A store with rows has a best block, which ends a stored chain. -/
theorem Inv.bestChain (hI : S.Inv C) (hne : S.blocks ≠ []) :
    ∃ chain b, S.StoredChain C (chain ++ [b]) ∧ S.bestRow = some b.row := by
  obtain ⟨r, hr⟩ := bestRow_isSome hne
  obtain ⟨chain, b, rfl, hc, -⟩ := hI.chain_of_mem (bestRow_mem hr)
  exact ⟨chain, b, hc, hr⟩

/-! ## `DB.AddBlocks` -/

/-- The first loop of `AddBlocks` stops at the first block whose hash is stored. -/
theorem divergedAt_append (hW : S.WellFormed) {new rest : List Block} {y : Block}
    (hnew : ∀ x ∈ new, x.hash ∉ S.hashes) (hy : y.hash ∈ S.hashes) :
    divergedAt S (new ++ y :: rest) = some new.length := by
  have hsome : (S.selectBlock y.hash).isSome = true := by
    obtain ⟨r, hr, he⟩ := List.mem_map.1 hy
    rw [← he, selectBlock_of_mem hW.hashes_nodup hr (hW.hash_ne r hr)]
    rfl
  have hnone : ∀ x ∈ new, (S.selectBlock x.hash).isSome = false := fun x hx => by
    cases hs : S.selectBlock x.hash with
    | none => rfl
    | some r =>
        obtain ⟨hr, he, -⟩ := selectBlock_eq_some hs
        exact absurd (List.mem_map.2 ⟨r, hr, he⟩) (hnew x hx)
  unfold divergedAt
  suffices ∀ i, (new ++ y :: rest).findIdx? (fun b => (S.selectBlock b.hash).isSome) i =
      some (new.length + i) from this 0
  induction new with
  | nil => intro i; simp [hsome]
  | cons x new ih =>
      intro i
      rw [List.cons_append, List.findIdx?_cons, if_neg (by simp [hnone x (List.mem_cons_self _ _)]),
        ih (fun z hz => hnew z (.tail _ hz)) (fun z hz => hnone z (.tail _ hz))]
      congr 1
      simp only [List.length_cons]
      omega

theorem DB.addBlocks_eq {new rest : List Block} {y : Block}
    (h : divergedAt S (new ++ y :: rest) = some new.length) :
    DB.addBlocks C (new ++ y :: rest) S = new.reverse.foldlM (fun S b => addBlock C b S) S := by
  unfold DB.addBlocks
  rw [h]
  cases new with
  | nil => rfl
  | cons x new =>
      show List.foldlM _ S (List.take (x :: new).length _).reverse = _
      rw [List.take_left]

end Store

open Store

variable {C : Crypto}

/-- Adding, oldest first, blocks that continue a stored chain commits each of them. -/
theorem Reachable.foldlM_addBlock : ∀ (suf : List Block) {S : Store} {pre : List Block} {p : Block},
    Reachable C S → S.StoredChain C (pre ++ [p]) → ValidChain C (pre ++ [p] ++ suf) →
    (∀ x ∈ suf, x.updateHash C = x ∧ x.hash ≠ emptyHash ∧ x.hash ∉ S.hashes) →
    (suf.map (·.hash)).Nodup →
    ∃ S₂, suf.foldlM (fun S b => addBlock C b S) S = .ok S₂ ∧ Reachable C S₂ ∧
      S₂.blocks = S.blocks ++ suf.map Block.row ∧ S₂.StoredChain C (pre ++ [p] ++ suf)
  | [], S, _, _, hS, hc, _, _, _ => ⟨S, rfl, hS, by simp, by simpa using hc⟩
  | x :: xs, S, pre, p, hS, hc, hv, hx, hnd => by
      have hv₁ : ValidChain C (pre ++ [p] ++ [x]) :=
        ValidChain.of_append (show ValidChain C (pre ++ [p] ++ [x] ++ xs) by simpa using hv) (by simp)
      rcases hv₁.snoc_inv with ⟨h, -⟩ | ⟨c, q, h, -, hvx, ht⟩
      · exact absurd h (List.append_ne_nil_of_right_ne_nil _ (List.cons_ne_nil _ _))
      obtain ⟨rfl, h2⟩ := List.append_inj' h rfl
      cases List.singleton_inj.1 h2
      obtain ⟨hxh, hxne, hxn⟩ := hx x (List.mem_cons_self _ _)
      rw [← hS.inv.ledgerAt_eq hc] at ht
      obtain ⟨S₁, hadd, hS₁, hbl₁, hc₁, -, -⟩ := hS.addBlock_step hc hxh hxn hxne hvx ht
      have hnd' := List.nodup_cons.1 hnd
      obtain ⟨S₂, hfold, hS₂, hbl₂, hc₂⟩ := Reachable.foldlM_addBlock xs hS₁ hc₁ (by simpa using hv)
        (fun y hy => ⟨(hx y (.tail _ hy)).1, (hx y (.tail _ hy)).2.1, by
          rw [hashes, hbl₁, List.map_append, ← hashes]
          refine fun hm => (List.mem_append.1 hm).elim (hx y (.tail _ hy)).2.2 fun hm => ?_
          exact hnd'.1 ((List.mem_singleton.1 hm) ▸ List.mem_map_of_mem _ hy)⟩)
        hnd'.2
      refine ⟨S₂, by rw [List.foldlM_cons, hadd]; exact hfold, hS₂, by rw [hbl₂, hbl₁]; simp,
        by simpa using hc₂⟩

namespace Store

variable {S S' : Store}

/-- A peer's stored chain whose last block's hash the node stores is a stored chain of the
node, when their rows agree wherever their hashes do. -/
theorem StoredChain.of_agree (hI : S.Inv C) (hI' : S'.Inv C)
    (hagree : ∀ r ∈ S.blocks, ∀ r' ∈ S'.blocks, r.hash = r'.hash → r = r') {c : List Block}
    {y : Block} (hc' : S'.StoredChain C (c ++ [y])) (hy : y.hash ∈ S.hashes) :
    S.StoredChain C (c ++ [y]) := by
  obtain ⟨r, hr, he⟩ := List.mem_map.1 hy
  obtain ⟨c₀, y₀, rfl, hc₀, -⟩ := hI.chain_of_mem hr
  obtain ⟨rfl, rfl⟩ := storedChain_agree hI hI' hagree hc₀ hc' he
  exact hc₀

/-- A peer's stored chain is the node's stored chain up to a block, then blocks the node
lacks. -/
theorem StoredChain.split_agree (hI : S.Inv C) (hI' : S'.Inv C)
    (hagree : ∀ r ∈ S.blocks, ∀ r' ∈ S'.blocks, r.hash = r'.hash → r = r')
    (hG : (genesisBlock C).row ∈ S.blocks) {l : List Block} (hc' : S'.StoredChain C l) :
    ∃ pre p suf, l = pre ++ [p] ++ suf ∧ S.StoredChain C (pre ++ [p]) ∧
      ∀ x ∈ suf, x.hash ∉ S.hashes := by
  induction l using List.reverseRecOn with
  | nil => exact absurd hc'.valid.head (by simp)
  | append_singleton c x ih =>
      by_cases hx : x.hash ∈ S.hashes
      · exact ⟨c, x, [], by simp, hc'.of_agree hI hI' hagree hx, by simp⟩
      rcases hc'.valid.snoc_inv with ⟨rfl, rfl⟩ | ⟨c₁, p₁, rfl, -, -, -⟩
      · exact absurd (List.mem_map_of_mem BlockRow.hash hG) hx
      obtain ⟨pre, p, suf, hl, hc, hsuf⟩ := ih (hc'.of_append (by simp))
      refine ⟨pre, p, suf ++ [x], by rw [hl]; simp, hc, fun z hz => ?_⟩
      rcases List.mem_append.1 hz with hz | hz
      · exact hsuf z hz
      · rw [List.mem_singleton.1 hz]; exact hx

end Store

/-- Syncing a peer's chain. Take two reachable stores that both hold the genesis block and
whose rows agree wherever their hashes do. The peer's `DB.Blocks()` is a list `L` that the
wire carries unchanged; `AddBlocks(L)` on the node finds the first stored block at some index
`d`, succeeds, commits exactly `L[d-1], ..., L[0]` and nothing when `d = 0`, and leaves every
block of `L` stored with the peer's ledger, so the node's best height is at least the peer's. -/
theorem sync_from_peer {S S' : Store} (hS : Reachable C S) (hS' : Reachable C S')
    (hG : (genesisBlock C).hash ≠ emptyHash)
    (hagree : ∀ r ∈ S.blocks, ∀ r' ∈ S'.blocks, r.hash = r'.hash → r = r') :
    ∃ L, DB.blocks C S' = .ok (some L) ∧ PeerClient.blocks C (blocksBody (some L)) = .ok (some L) ∧
      ∃ d, divergedAt S L = some d ∧ (∀ x ∈ L.take d, x.hash ∉ S.hashes) ∧
      ∃ S₂, Op.run C (.addBlocks L) S = .ok S₂ ∧
        S₂.blocks = S.blocks ++ (L.take d).reverse.map Block.row ∧ (d = 0 → S₂ = S) ∧
        (∀ x ∈ L, x.row ∈ S₂.blocks ∧ S₂.ledgerAt x.hash = S'.ledgerAt x.hash) ∧
        ∀ r' ∈ S'.blocks, ∃ r ∈ S₂.blocks, r'.height ≤ r.height := by
  have hI := hS.inv
  have hI' := hS'.inv
  obtain ⟨chain, b, hc', hbest⟩ := hI'.bestChain (List.ne_nil_of_mem (hS'.genesis_mem hG))
  obtain ⟨pre, p, suf, hl, hcS, hsuf⟩ := hc'.split_agree hI hI' hagree (hS.genesis_mem hG)
  have hhashed : ∀ x ∈ (chain ++ [b]).reverse, x.updateHash C = x :=
    fun x hx => hc'.hashed x (List.mem_reverse.1 hx)
  have hL : (chain ++ [b]).reverse = suf.reverse ++ p :: pre.reverse := by rw [hl]; simp
  have hp : p.hash ∈ S.hashes := List.mem_map_of_mem BlockRow.hash (hcS.stored p (by simp))
  have hd : divergedAt S (suf.reverse ++ p :: pre.reverse) = some suf.reverse.length :=
    divergedAt_append hI.wf (by simpa using hsuf) hp
  have htake : (chain ++ [b]).reverse.take suf.length = suf.reverse := by
    rw [hL, List.take_left' (List.length_reverse _)]
  have hsufmem : ∀ x ∈ suf, x ∈ chain ++ [b] := fun x hx => by rw [hl]; simp [hx]
  have hnd := hc'.hashes_nodup hI'
  rw [hl, List.map_append] at hnd
  obtain ⟨S₂, hfold, hS₂, hbl, hc₂⟩ := Reachable.foldlM_addBlock suf hS hcS (hl ▸ hc'.valid)
    (fun x hx => ⟨hc'.hashed x (hsufmem x hx), hI'.wf.hash_ne _ (hc'.stored x (hsufmem x hx)),
      hsuf x hx⟩) (List.nodup_append.1 hnd).2.1
  have hc₂' : S₂.StoredChain C (chain ++ [b]) := hl ▸ hc₂
  refine ⟨(chain ++ [b]).reverse, hI'.blocks_eq hc' hbest, PeerClient.blocks_body C hhashed,
    suf.length, by rw [hL, hd, List.length_reverse], by rw [htake]; simpa using hsuf, S₂, ?_,
    by rw [htake, List.reverse_reverse]; exact hbl, fun h0 => ?_, fun x hx => ?_,
    fun r' hr' => ⟨b.row, hc₂'.stored b (by simp), bestRow_max hbest r' hr'⟩⟩
  · rw [Op.run, Block.map_updateHash_of_hashed hhashed, hL, DB.addBlocks_eq hd,
      List.reverse_reverse]
    exact hfold
  · rw [List.length_eq_zero] at h0
    subst h0
    exact (Except.ok.inj hfold).symm
  · obtain ⟨c, d, hcd, hcx⟩ := hc₂'.prefix_of_mem (List.mem_reverse.1 hx)
    have hcx' : S'.StoredChain C (c ++ [x]) := (hcd ▸ hc').of_append (by simp)
    exact ⟨hcx.stored x (by simp), (hS₂.inv.ledgerAt_eq hcx).trans (hI'.ledgerAt_eq hcx').symm⟩

open LongChain in
/-- A node that stores `rewardBlock 1` syncs from a peer that stores `spendBlock` on it: the
peer lists three blocks and the node adds the newest one. -/
theorem sync_from_peer_rewardStore : Reachable C₀ rewardStore ∧ Reachable C₀ pendingStore ∧
    (genesisBlock C₀).hash ≠ emptyHash ∧
    (∀ r ∈ rewardStore.blocks, ∀ r' ∈ pendingStore.blocks, r.hash = r'.hash → r = r') ∧
    ∃ L, DB.blocks C₀ pendingStore = .ok (some L) ∧
      PeerClient.blocks C₀ (blocksBody (some L)) = .ok (some L) ∧
      ∃ d, divergedAt rewardStore L = some d ∧ (∀ x ∈ L.take d, x.hash ∉ rewardStore.hashes) ∧
      ∃ S₂, Op.run C₀ (.addBlocks L) rewardStore = .ok S₂ ∧
        S₂.blocks = rewardStore.blocks ++ (L.take d).reverse.map Block.row ∧ (d = 0 → S₂ = rewardStore) ∧
        (∀ x ∈ L, x.row ∈ S₂.blocks ∧ S₂.ledgerAt x.hash = pendingStore.ledgerAt x.hash) ∧
        ∀ r' ∈ pendingStore.blocks, ∃ r ∈ S₂.blocks, r'.height ≤ r.height :=
  have hagree : ∀ r ∈ rewardStore.blocks, ∀ r' ∈ pendingStore.blocks, r.hash = r'.hash → r = r' :=
    fun r hr r' hr' => List.inj_on_of_nodup_map pendingStore_reachable.inv.wf.hashes_nodup
      (by
        rw [rewardStore_spec.2.1] at hr
        rw [pendingStore_blocks]
        exact (show r ∈ [(rewardBlock 0).row, (rewardBlock 1).row] ++ [spendBlock.row] from
          List.mem_append_left _ hr)) hr'
  ⟨rewardStore_reachable, pendingStore_reachable, genesis_hash_ne, hagree,
    sync_from_peer rewardStore_reachable pendingStore_reachable genesis_hash_ne hagree⟩

namespace LongChain

/-! ## Two blocks with one hash

Under `C₀` a block's hash keeps only its height and half its nonce, so the block `forkBlock`,
paying the reward to `[2]`, and `rewardBlock 1`, paying it to `miner`, share the hash
`hashAt 1`. A node that stores `forkBlock` takes a peer's chain through `rewardBlock 1` to be
its own below that hash, and applies the peer's next block on the wrong ledger: the transfer
from `miner` that block carries finds no coins there. -/

/-- The block the node mines on the genesis block. -/
def forkBlock : Block := newBlock C₀ (genesisBlock C₀) 0 (some [2]) 1000 none

theorem forkBlock_hash : forkBlock.hash = hashAt 1 := newBlock_hash (k := 0) rfl _ _ _

theorem forkBlock_ne : forkBlock ≠ rewardBlock 1 := fun h =>
  absurd (congrArg (fun b => b.rewardOutput.destination) h) (by decide)

/-- `miner` holds nothing after `forkBlock`. -/
theorem forkLedger_miner : (Ledger.empty.applyBlock forkBlock).bal (Bytes.data miner) = 0 := by
  have hd : Bytes.data miner ≠ Bytes.data forkBlock.rewardOutput.destination := by decide
  have hx : forkBlock.txs = [] := rfl
  rw [Ledger.applyBlock, hx]
  split_ifs <;> simp [Ledger.credit, Ledger.empty, hd]

/-- The node's store: the genesis block and `forkBlock`. -/
theorem forkStore_reachable : ∃ S, Reachable C₀ S ∧ S.WellFormed ∧
    S.hashes = [hashAt 0, hashAt 1] ∧ S.ledgerAt (hashAt 1) = Ledger.empty.applyBlock forkBlock ∧
    forkBlock.row ∈ S.blocks := by
  have hS₀ : Reachable C₀ (migrate C₀) := .refl
  have hh₀ : (migrate C₀).hashes = [hashAt 0] := by rw [Store.migrate_hashes genesis_hash_ne]; rfl
  have hc : (migrate C₀).StoredChain C₀ ([] ++ [genesisBlock C₀]) := Store.migrate_storedChain genesis_hash_ne
  obtain ⟨S, -, hS, hbl, -, hL, -⟩ := hS₀.addBlock_step (b := forkBlock) hc (Block.updateHash_idem C₀ _)
    (by rw [hh₀, forkBlock_hash]; exact hashAt_not_mem (k := 1) (by norm_num))
    (by rw [forkBlock_hash]; exact hashAt_ne 1) (newBlock_validOn 0 (some [2]) none (by decide) (by simp))
    trivial
  refine ⟨S, hS, hS.inv.wf, ?_, by rw [← forkBlock_hash, hL]; rfl, by simp [hbl]⟩
  rw [Store.hashes, hbl, List.map_append, ← Store.hashes, hh₀]
  simp [forkBlock_hash]

/-- With a hash collision between the node's rows and the peer's, the peer's best chain
crosses the wire intact and still fails to apply: `AddBlocks` stops at `rewardBlock 1`, whose
hash the node stores as `forkBlock`, and `spendBlock` is refused on `forkBlock`'s ledger. -/
theorem hash_collision_sync_fails : ∃ S S', Reachable C₀ S ∧ Reachable C₀ S' ∧
    (∃ r ∈ S.blocks, ∃ r' ∈ S'.blocks, r.hash = r'.hash ∧ r ≠ r') ∧
    ∃ L, DB.blocks C₀ S' = .ok (some L) ∧ PeerClient.blocks C₀ (blocksBody (some L)) = .ok (some L) ∧
      ∀ S₂, Op.run C₀ (.addBlocks L) S ≠ .ok S₂ := by
  obtain ⟨S, hS, hW, hh, hL, hX⟩ := forkStore_reachable
  have hsc' := spendStore_spec.2.2.1
  have hhashed : ∀ x ∈ ([rewardBlock 0, rewardBlock 1] ++ [spendBlock]).reverse,
      x.updateHash C₀ = x := fun x hx => hsc'.hashed x (List.mem_reverse.1 hx)
  refine ⟨S, spendStore, hS, spendStore_reachable, ⟨_, hX, _, by simp [spendStore_spec.2.1],
    forkBlock_hash.trans (rewardBlock_hash 1).symm,
    fun h => forkBlock_ne (Block.eq_of_row (Block.updateHash_idem C₀ _) (rewardBlock_hashed 1) h)⟩,
    _, spendStore_reachable.inv.blocks_eq hsc' pendingStore_spec.2.2.1, PeerClient.blocks_body C₀ hhashed, fun S₂ h => ?_⟩
  have hd : divergedAt S ([spendBlock] ++ rewardBlock 1 :: [rewardBlock 0]) = some [spendBlock].length :=
    Store.divergedAt_append hW (fun x hx => by
        rw [List.mem_singleton.1 hx, hh, spendBlock_hash]; exact hashAt_not_mem (k := 2) (by norm_num))
      (by rw [hh, rewardBlock_hash]; simp)
  rw [Op.run, Block.map_updateHash_of_hashed hhashed] at h
  change DB.addBlocks C₀ ([spendBlock] ++ rewardBlock 1 :: [rewardBlock 0]) S = .ok S₂ at h
  rw [Store.DB.addBlocks_eq hd] at h
  change addBlock C₀ spendBlock S >>= pure = .ok S₂ at h
  rw [bind_pure] at h
  rcases Store.addBlock_eq_ok hW h with ⟨hm, -⟩ | ⟨row, prev, -, -, -, -, hA⟩
  · rw [hh, spendBlock_hash] at hm
    exact hashAt_not_mem (k := 2) (by norm_num) hm
  · have hc := hA.txsOk.1.covers
    change _ ≤ (S.ledgerAt (hashAt 1)).bal (Bytes.data miner) at hc
    rw [hL, forkLedger_miner, spendTx_required] at hc
    omega

end LongChain

end Cryptopuff
