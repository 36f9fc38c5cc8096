import Cryptopuff.Store.Invariant
import Cryptopuff.Supply

/-!
# Stored chains

What a reachable store says about its blocks, from `Reachable.inv`: every stored block ends
exactly one `StoredChain` from the genesis block (`Inv.storedChain_unique`), its `chain(B)`, the
rows of the block hold `Ledger.ofChain chain(B)` (`Inv.ledgerAt_eq`), and every later run of
committed transactions keeps them (`Reachable.run_extends`). `Reachable.addBlock_step` and
`Op.run_addTx_of_txOk` are the steps by which later files build their stores. Every row's key is
the hash the node recomputes from the row's JSON (`wire_round_trip`).

What this gives for each block, its ledger, its validity and its coins, is in
`Cryptopuff.StoredBlocks`.
-/

namespace Cryptopuff

namespace Store

variable {C : Crypto} {S : Store}

/-- Two stored rows with one hash are one row. -/
theorem Inv.row_eq_of_hash (hI : S.Inv C) {r r' : BlockRow} (hr : r ∈ S.blocks)
    (hr' : r' ∈ S.blocks) (he : r.hash = r'.hash) : r = r' :=
  List.inj_on_of_nodup_map hI.wf.hashes_nodup hr hr' he

/-- Hashed blocks with one row are one block: the row's JSON decodes to each. -/
theorem Block.eq_of_row {b b' : Block} (hb : b.updateHash C = b) (hb' : b'.updateHash C = b')
    (h : b.row = b'.row) : b = b' := by
  have hd := decodeBlock_row hb
  rw [h, decodeBlock_row hb'] at hd
  exact (Except.ok.inj hd).symm

theorem StoredChain.dropLast {chain : List Block} {b : Block}
    (hc : S.StoredChain C (chain ++ [b])) {c : List Block} {p : Block} (h : chain = c ++ [p])
    (hv : ValidChain C (c ++ [p])) : S.StoredChain C (c ++ [p]) :=
  ⟨hv, fun x hx => hc.stored x (by rw [h]; exact List.mem_append_left _ hx),
    fun x hx => hc.hashed x (by rw [h]; exact List.mem_append_left _ hx)⟩

/-- A stored block other than the genesis block has a stored parent, so its chain has a block
before it; the genesis block's parent hash is `NULL`. -/
theorem StoredChain.eq_nil_iff (hI : S.Inv C) {chain : List Block} {b : Block}
    (hc : S.StoredChain C (chain ++ [b])) : chain = [] ↔ b.previousHash = emptyHash := by
  rcases hc.valid.snoc_inv with ⟨rfl, rfl⟩ | ⟨c, p, rfl, -, hv, -⟩
  · exact ⟨fun _ => rfl, fun _ => rfl⟩
  · have hp := hI.wf.hash_ne _ (hc.stored p (by simp))
    rw [hv.previousHash_eq]
    exact ⟨fun h => absurd h (List.append_ne_nil_of_right_ne_nil _ (List.cons_ne_nil _ _)),
      fun h => absurd h hp⟩

/-- Two reachable stores whose rows agree wherever their hashes do hold one chain below
blocks of one hash. -/
theorem storedChain_agree {S₁ S₂ : Store} (hI₁ : S₁.Inv C) (hI₂ : S₂.Inv C)
    (hagree : ∀ r ∈ S₁.blocks, ∀ r' ∈ S₂.blocks, r.hash = r'.hash → r = r') :
    ∀ {chain chain' : List Block} {b b' : Block}, S₁.StoredChain C (chain ++ [b]) →
      S₂.StoredChain C (chain' ++ [b']) → b.hash = b'.hash → chain = chain' ∧ b = b' := by
  intro chain
  induction chain using List.reverseRecOn with
  | nil =>
      intro chain' b b' hc hc' he
      obtain rfl := Block.eq_of_row (hc.hashed b (by simp)) (hc'.hashed b' (by simp))
        (hagree _ (hc.stored b (by simp)) _ (hc'.stored b' (by simp)) he)
      exact ⟨((hc'.eq_nil_iff hI₂).2 ((hc.eq_nil_iff hI₁).1 rfl)).symm, rfl⟩
  | append_singleton c p ih =>
      intro chain' b b' hc hc' he
      obtain rfl := Block.eq_of_row (hc.hashed b (by simp)) (hc'.hashed b' (by simp))
        (hagree _ (hc.stored b (by simp)) _ (hc'.stored b' (by simp)) he)
      rcases hc.valid.snoc_inv with ⟨h, -⟩ | ⟨c₁, p₁, h, hv, hbv, -⟩
      · exact absurd h (List.append_ne_nil_of_right_ne_nil _ (List.cons_ne_nil _ _))
      rcases hc'.valid.snoc_inv with ⟨h', -⟩ | ⟨c₂, p₂, h', hv', hbv', -⟩
      · exact absurd ((hc.eq_nil_iff hI₁).2 ((hc'.eq_nil_iff hI₂).1 h'))
          (List.append_ne_nil_of_right_ne_nil _ (List.cons_ne_nil _ _))
      obtain ⟨rfl, h2⟩ := List.append_inj' h rfl
      cases List.singleton_inj.1 h2
      obtain ⟨rfl, rfl⟩ := ih (hc.dropLast h hv) (hc'.dropLast h' hv')
        (hbv.previousHash_eq.symm.trans hbv'.previousHash_eq)
      exact ⟨h'.symm, rfl⟩

/-- In a reachable store each block ends one stored chain. -/
theorem Inv.storedChain_unique (hI : S.Inv C) {chain chain' : List Block} {b b' : Block}
    (hc : S.StoredChain C (chain ++ [b])) (hc' : S.StoredChain C (chain' ++ [b']))
    (he : b.hash = b'.hash) : chain = chain' ∧ b = b' :=
  storedChain_agree hI hI (fun _ hr _ hr' he => hI.row_eq_of_hash hr hr' he) hc hc' he

/-- A nonempty prefix of a stored chain is a stored chain. -/
theorem StoredChain.of_append {l₁ l₂ : List Block} (hc : S.StoredChain C (l₁ ++ l₂))
    (hne : l₁ ≠ []) : S.StoredChain C l₁ :=
  ⟨hc.valid.of_append hne, fun x hx => hc.stored x (List.mem_append_left _ hx),
    fun x hx => hc.hashed x (List.mem_append_left _ hx)⟩

/-- Each block of a stored chain ends a stored prefix of it. -/
theorem StoredChain.prefix_of_mem {l : List Block} (hc : S.StoredChain C l) {x : Block}
    (hx : x ∈ l) : ∃ c d, l = c ++ [x] ++ d ∧ S.StoredChain C (c ++ [x]) := by
  obtain ⟨c, d, rfl⟩ := List.append_of_mem hx
  have h : c ++ x :: d = c ++ [x] ++ d := by simp
  exact ⟨c, d, h, (h ▸ hc).of_append (by simp)⟩

/-- No hash occurs twice on a stored chain. -/
theorem StoredChain.hashes_nodup (hI : S.Inv C) {l : List Block} (hc : S.StoredChain C l) :
    (l.map (·.hash)).Nodup := by
  induction l using List.reverseRecOn with
  | nil => exact List.nodup_nil
  | append_singleton c x ih =>
      rw [List.map_append, List.nodup_append]
      refine ⟨?_, List.nodup_singleton _, List.disjoint_singleton.2 fun hm => ?_⟩
      · rcases c.eq_nil_or_concat with rfl | ⟨c', y, rfl⟩
        · exact List.nodup_nil
        · exact ih (hc.of_append (by simp))
      obtain ⟨y, hy, he⟩ := List.mem_map.1 hm
      obtain ⟨c₁, c₂, rfl, hc₁⟩ := (hc.of_append (by
        rintro rfl; cases hy)).prefix_of_mem hy
      obtain ⟨h, -⟩ := hI.storedChain_unique hc₁ hc he
      have := congrArg List.length h
      simp at this

/-- The block a stored row holds, with its chain. -/
theorem Inv.chain_of_mem (hI : S.Inv C) {r : BlockRow} (hr : r ∈ S.blocks) :
    ∃ chain b, r = b.row ∧ S.StoredChain C (chain ++ [b]) ∧
      S.ledgerAt b.hash = Ledger.ofChain (chain ++ [b]) :=
  hI.chains r hr

/-- The rows of the last block of a stored chain hold the ledger of that chain. -/
theorem Inv.ledgerAt_eq (hI : S.Inv C) {chain : List Block} {b : Block}
    (hsc : S.StoredChain C (chain ++ [b])) : S.ledgerAt b.hash = Ledger.ofChain (chain ++ [b]) := by
  obtain ⟨chain', b', hr, hsc', hL⟩ := hI.chain_of_mem (hsc.stored b (by simp))
  obtain ⟨rfl, rfl⟩ := hI.storedChain_unique hsc' hsc (congrArg BlockRow.hash hr).symm
  exact hL

end Store

open Store

/-- From a reachable store, every run of committed transactions keeps every stored block with
its ledger. -/
theorem Reachable.run_extends {C : Crypto} {S S' : Store} (hS : Reachable C S)
    (hrun : Relation.ReflTransGen (Step C) S S') : S.Extends S' := by
  induction hrun with
  | refl => exact .refl S
  | tail hrun' hs ih => exact ih.trans (hs.inv (Reachable.inv (hS.trans hrun'))).2

/-- The genesis block stays stored. -/
theorem Reachable.genesis_mem {C : Crypto} {S : Store} (hS : Reachable C S)
    (hG : (genesisBlock C).hash ≠ emptyHash) : (genesisBlock C).row ∈ S.blocks :=
  (Reachable.run_extends .refl hS).blocks.subset (by simp [migrate, hG])

/-- A new block that is valid on the last block of a stored chain and whose transfers pass on
that block's ledger is committed by an `AddBlock` step, which stores the longer chain and
gives the block its parent's ledger with the block applied. -/
theorem Reachable.addBlock_step {C : Crypto} {S : Store} {chain : List Block} {b p : Block}
    (hS : Reachable C S) (hc : S.StoredChain C (chain ++ [p])) (hb : b.updateHash C = b)
    (hnot : b.hash ∉ S.hashes) (hne : b.hash ≠ emptyHash) (hv : b.ValidOn C p)
    (ht : (S.ledgerAt p.hash).TxsOk C b.txs) :
    ∃ S', addBlock C b S = .ok S' ∧ Reachable C S' ∧ S'.blocks = S.blocks ++ [b.row] ∧
      S'.StoredChain C (chain ++ [p] ++ [b]) ∧
      S'.ledgerAt b.hash = (S.ledgerAt p.hash).applyBlock b ∧ S'.txs = (b.txs.foldl addTx S).txs := by
  have hI := hS.inv
  have hp := hc.stored p (by simp)
  have hsel : S.selectBlock b.previousHash = some p.row := by
    rw [hv.previousHash_eq]
    exact Store.selectBlock_of_mem hI.wf.hashes_nodup hp (hI.wf.hash_ne _ hp)
  have hdec := Store.decodeBlock_row (hc.hashed p (by simp))
  obtain ⟨S', hc'⟩ := Store.addBlock_ok hI.wf hsel hdec hne hnot hv (hv.previousHash_eq ▸ ht)
  have hstep : Step C S S' := .commit (.addBlock b) (by rw [Op.run, hb]; exact hc')
  rcases Store.addBlock_eq_ok hI.wf hc' with ⟨h, -⟩ | ⟨row, previous, hrow, hdec', -, -, hA⟩
  · exact absurd h hnot
  rw [hsel] at hrow
  cases hrow
  cases hdec.symm.trans hdec'
  refine ⟨S', hc', hS.tail hstep, hA.touches.blocks_eq,
    hc.snoc hA.touches.blocks_eq hb hv (hI.ledgerAt_eq hc ▸ ht), ?_,
    hA.txs_eq.trans (foldl_addTx_txs_congr (show ({ S with blocks := S.blocks ++ [b.row] } : Store).txs = S.txs from rfl) _)⟩
  rw [hA.ledgerAt_eq, hv.previousHash_eq]
  rfl

/-- `AddTx` commits a transaction that passes on the ledger of the best block. -/
theorem Op.run_addTx_of_txOk {C : Crypto} {S : Store} {s : SignedTx} (hW : S.WellFormed)
    (hs : s.updateHash C = s) {tip : Hash} (htip : bestBlockHash S = .ok tip)
    (hok : (S.ledgerAt tip).TxOk C s) : Op.run C (.addTx s) S = .ok (S.addTx s) := by
  have hne : tip ≠ emptyHash := by
    unfold bestBlockHash at htip
    split at htip
    · next r hr => cases htip; exact hW.hash_ne r (bestRow_mem hr)
    · cases htip
  have hsel : S.selectIncluded tip s.hash = false :=
    Bool.eq_false_iff.2 fun h => hok.fresh ((selectIncluded_iff hne hok.hash_ne).1 h)
  have hv : validTx C S s tip = .ok () :=
    (validTx_eq_ok hne).2 ⟨hok.valid, hok.inRange, hok.covers, hsel⟩
  simp only [Op.run, hs, DB.addTx, htip, hv, Except.ok_bind]
  rfl

/-- The codecs round-trip: `json.Unmarshal` of `json.Marshal` gives a block or a transaction
back with its `json:"-"` hashes at the zero value, `DecodeBlock` and `PendingTxs`'s decoding
recompute the hashes `UpdateHash` gives, and `Scan` of `Value` gives a hash back and an
address's bytes back. So in a reachable store every row of `blocks` and `txs` is keyed by the
hash the node recomputes from its JSON, and `BestBlock` is the block `bestBlockHash` names. -/
theorem wire_round_trip (C : Crypto) :
    (∀ b : Block, Block.unmarshal b.marshal = .ok b.clearHashes) ∧
    (∀ s : SignedTx, SignedTx.unmarshal s.marshal = .ok s.clearHash) ∧
    (∀ b : Block, decodeBlock C b.marshal = .ok (b.updateHash C)) ∧
    (∀ s : SignedTx, decodeSignedTx C s.marshal = .ok (s.updateHash C)) ∧
    (∀ h : Hash, Hash.scan h.value = .ok h ∧ (h.value = none ↔ h = emptyHash)) ∧
    (∀ a : Address, Address.scan (Address.value a) = .ok (some (Bytes.data a))) ∧
    ∀ S, Reachable C S →
      (∀ r ∈ S.blocks, ∃ b, decodeBlock C r.block = .ok b ∧ b.hash = r.hash) ∧
      (∀ r ∈ S.txs, ∃ s, decodeSignedTx C r.tx = .ok s ∧ s.hash = r.hash) ∧
      ∀ b, DB.bestBlock C S = .ok b → bestBlockHash S = .ok b.hash := by
  have hdec : ∀ s : SignedTx, decodeSignedTx C s.marshal = .ok (s.updateHash C) := fun s => by
    rw [decodeSignedTx, SignedTx.unmarshal_marshal]; rfl
  refine ⟨Block.unmarshal_marshal, SignedTx.unmarshal_marshal, decodeBlock_marshal C, hdec,
    fun h => ⟨Hash.scan_value h, by unfold Hash.value; split <;> simp_all⟩, Address.scan_value,
    fun S hS => ?_⟩
  have hI := hS.inv
  have hrows : ∀ r ∈ S.blocks, ∃ b, decodeBlock C r.block = .ok b ∧ b.hash = r.hash := by
    intro r hr
    obtain ⟨chain, b, rfl, hsc, -⟩ := hI.chain_of_mem hr
    exact ⟨b, decodeBlock_row (hsc.hashed b (by simp)), rfl⟩
  refine ⟨hrows, fun r hr => ?_, fun b hb => ?_⟩
  · obtain ⟨s, hs, rfl⟩ := hI.txs_hashed r hr
    exact ⟨s, by rw [SignedTx.row, hdec, hs], rfl⟩
  · unfold DB.bestBlock at hb
    unfold bestBlockHash
    split at hb
    · next r hbest =>
        obtain ⟨b', hb', he⟩ := hrows r (bestRow_mem hbest)
        rw [← he, Except.ok.inj (hb'.symm.trans hb)]
    · cases hb

end Cryptopuff
