import Cryptopuff.Store.AddBlock

/-!
# The invariant of reachable stores

`Inv` is what every store a node reaches satisfies: the tables are well formed, every stored
block ends a `StoredChain` from the genesis block and its rows hold the ledger of that chain,
and every row of `txs` holds a hashed transaction. `Reachable.inv` proves it from one lemma
per operation, `Inv.addBlock` first.

`Extends S S'` is what a committed transaction keeps: every stored block, with its ledger.
`Step.extends` proves it for every step, so a block's balances and inclusion set are fixed
once it is committed.
-/

namespace Cryptopuff

/-! ## What `AddTx` and `PendingTxs` change -/

section

variable {C : Crypto} {S S' : Store}

/-- `DB.AddTx` inserts the transaction with `INSERT OR IGNORE`, after its checks. -/
theorem DB.addTx_eq_ok {s : SignedTx} (hc : DB.addTx C s S = .ok S') :
    ∃ tip, bestBlockHash S = .ok tip ∧ validTx C S s tip = .ok () ∧ S' = S.addTx s := by
  simp only [DB.addTx, Except.bind_eq_ok] at hc
  obtain ⟨tip, ht, ⟨⟩, hv, hret⟩ := hc
  exact ⟨tip, ht, hv, (Except.ok.inj hret).symm⟩

/-- The loop of `PendingTxs` only deletes rows of `txs`. -/
theorem pendingLoop_store (limit : Int) :
    ∀ (rows : List TxRow) {acc acc'}, pendingLoop C limit rows acc = .ok acc' →
      ∃ txs, txs.Sublist acc.1.txs ∧ acc'.1 = { acc.1 with txs := txs }
  | [], acc, acc', hc => by
      cases Except.ok.inj hc
      exact ⟨_, List.Sublist.refl _, rfl⟩
  | r :: rows, (S, temp, picked), acc', hc => by
      obtain ⟨stx, -, ⟨-, -, -, hc⟩ | ⟨-, -, hc⟩⟩ := pendingLoop_cons_ok hc
      · obtain ⟨txs, hsub, he⟩ := pendingLoop_store limit rows hc
        obtain ⟨rows', hsub', hd⟩ := Store.deleteTx_eq (S := S) stx.hash
        rw [hd] at he hsub
        exact ⟨txs, hsub.trans hsub', he⟩
      · obtain ⟨txs, hsub, he⟩ := pendingLoop_store limit rows hc
        exact ⟨txs, hsub, he⟩

theorem DB.pendingTxs_store {tip : Hash} {limit : Int} {L : Option (List SignedTx)}
    (hc : DB.pendingTxs C tip limit S = .ok (S', L)) :
    ∃ txs, txs.Sublist S.txs ∧ S' = { S with txs := txs } := by
  simp only [DB.pendingTxs, Except.bind_eq_ok] at hc
  obtain ⟨temp, -, acc, hl, hret⟩ := hc
  obtain ⟨txs, hsub, he⟩ := pendingLoop_store limit _ hl
  exact ⟨txs, hsub, (congrArg Prod.fst (Except.ok.inj hret)).symm.trans he⟩

end

namespace Store

variable {C : Crypto} {S S' : Store}

/-- `chain` is a valid chain whose blocks are stored, each hashed as `UpdateHash` leaves it. -/
structure StoredChain (C : Crypto) (S : Store) (chain : List Block) : Prop where
  valid : ValidChain C chain
  stored : ∀ b ∈ chain, b.row ∈ S.blocks
  hashed : ∀ b ∈ chain, b.updateHash C = b

/-- The invariant of reachable stores. -/
structure Inv (C : Crypto) (S : Store) : Prop where
  wf : S.WellFormed
  chains : ∀ r ∈ S.blocks, ∃ chain b, r = b.row ∧ S.StoredChain C (chain ++ [b]) ∧
    S.ledgerAt b.hash = Ledger.ofChain (chain ++ [b])
  txs_hashed : ∀ r ∈ S.txs, ∃ s : SignedTx, s.updateHash C = s ∧ r = s.row

/-- What a committed transaction keeps of `S`: every stored block, with its ledger. -/
structure Extends (S S' : Store) : Prop where
  blocks : S.blocks <+: S'.blocks
  ledgerAt_eq : ∀ r ∈ S.blocks, S'.ledgerAt r.hash = S.ledgerAt r.hash

theorem Extends.refl (S : Store) : Extends S S := ⟨List.prefix_refl _, fun _ _ => rfl⟩

theorem Extends.trans {S₁ S₂ S₃ : Store} (h₁ : Extends S₁ S₂) (h₂ : Extends S₂ S₃) :
    Extends S₁ S₃ :=
  ⟨h₁.blocks.trans h₂.blocks, fun r hr =>
    (h₂.ledgerAt_eq r (h₁.blocks.subset hr)).trans (h₁.ledgerAt_eq r hr)⟩

theorem StoredChain.mono {chain : List Block} (hc : S.StoredChain C chain)
    (hsub : ∀ r ∈ S.blocks, r ∈ S'.blocks) : S'.StoredChain C chain :=
  ⟨hc.valid, fun b hb => hsub _ (hc.stored b hb), hc.hashed⟩

/-- A stored chain grows by a block valid on its last one, once the block's row is added. -/
theorem StoredChain.snoc {chain : List Block} {p b : Block} (hc : S.StoredChain C (chain ++ [p]))
    (hbl : S'.blocks = S.blocks ++ [b.row]) (hb : b.updateHash C = b) (hv : b.ValidOn C p)
    (ht : (Ledger.ofChain (chain ++ [p])).TxsOk C b.txs) : S'.StoredChain C (chain ++ [p] ++ [b]) where
  valid := .snoc hc.valid hv ht
  stored x hx := by
    rw [hbl]
    rcases List.mem_append.1 hx with hx | hx
    · exact List.mem_append_left _ (hc.stored x hx)
    · rw [List.mem_singleton.1 hx]; exact List.mem_append_right _ (List.mem_singleton_self _)
  hashed x hx := by
    rcases List.mem_append.1 hx with hx | hx
    · exact hc.hashed x hx
    · rw [List.mem_singleton.1 hx]; exact hb

/-- A stored row of a hashed block decodes to the block. -/
theorem decodeBlock_row {b : Block} (hb : b.updateHash C = b) : decodeBlock C b.row.block = .ok b := by
  rw [Block.row, decodeBlock_marshal, hb]

/-- `applyBlock` leaves the ledger of every other block alone. -/
theorem BlockApplied.ledgerAt_of_ne {b previous : Block} (hA : BlockApplied C b previous S S')
    {h : Hash} (hh : h ≠ b.hash) : S'.ledgerAt h = S.ledgerAt h := by
  simp only [ledgerAt, Ledger.mk.injEq]
  refine ⟨funext (hA.touches.balanceAt_eq h hh), ?_⟩
  have hi : S'.includedTxs = S.includedTxs ++ (S.copiedIncluded b.hash b.previousHash ++
      b.txs.map fun s => ⟨b.hash, s.hash⟩) := by
    rw [hA.includedTxs_eq, List.append_assoc]
  rw [includedAt_append hi]
  simp [copiedIncluded, List.filter_append, List.filter_map, Function.comp_def, Ne.symm hh]

/-! ## `addBlock` -/

/-- `addBlock` of a hashed block keeps the invariant and every stored block's ledger. -/
theorem Inv.addBlock {b : Block} (hI : S.Inv C) (hb : b.updateHash C = b)
    (hc : Cryptopuff.addBlock C b S = .ok S') : S'.Inv C ∧ Extends S S' := by
  rcases addBlock_eq_ok hI.wf hc with ⟨-, rfl⟩ | ⟨row, previous, hrow, hdec, -, hnot, hA⟩
  · exact ⟨hI, .refl _⟩
  obtain ⟨hmem, hrh, -⟩ := selectBlock_eq_some hrow
  obtain ⟨cp, p, rfl, hsc, hLp⟩ := hI.chains row hmem
  obtain rfl : previous = p := by
    rw [decodeBlock_row (hsc.hashed p (by simp))] at hdec
    exact (Except.ok.inj hdec).symm
  have hbl : S'.blocks = S.blocks ++ [b.row] := hA.touches.blocks_eq
  have hsub : ∀ r ∈ S.blocks, r ∈ S'.blocks := fun r hr => by
    rw [hbl]; exact List.mem_append_left _ hr
  have hold : ∀ r ∈ S.blocks, S'.ledgerAt r.hash = S.ledgerAt r.hash := fun r hr =>
    hA.ledgerAt_of_ne fun he => hnot (he ▸ List.mem_map_of_mem _ hr)
  have hLb : S'.ledgerAt b.hash = Ledger.ofChain (cp ++ [previous] ++ [b]) := by
    rw [hA.ledgerAt_eq, ← hrh, Ledger.ofChain_append_singleton, ← hLp]
    rfl
  have hnew : S'.StoredChain C (cp ++ [previous] ++ [b]) := by
    refine ⟨.snoc hsc.valid hA.valid ?_, fun x hx => ?_, fun x hx => ?_⟩
    · have hph : previous.hash = b.previousHash := hrh
      rw [← hLp, hph]; exact hA.txsOk
    · rcases List.mem_append.1 hx with hx | hx
      · exact hsub _ (hsc.stored x hx)
      · rw [List.mem_singleton.1 hx, hbl]; simp
    · rcases List.mem_append.1 hx with hx | hx
      · exact hsc.hashed x hx
      · rw [List.mem_singleton.1 hx]; exact hb
  refine ⟨⟨hI.wf.addBlock hc, fun r hr => ?_, fun r hr => ?_⟩, ⟨⟨[b.row], hbl.symm⟩, hold⟩⟩
  · rw [hbl] at hr
    rcases List.mem_append.1 hr with hr | hr
    · obtain ⟨c, b', rfl, hsc', hL'⟩ := hI.chains _ hr
      exact ⟨c, b', rfl, hsc'.mono hsub, (hold _ hr).trans hL'⟩
    · exact ⟨cp ++ [previous], b, List.mem_singleton.1 hr, hnew, hLb⟩
  · rw [hA.txs_eq] at hr
    rcases mem_foldl_addTx_txs hr with hr | ⟨s, hs, rfl, -⟩
    · exact hI.txs_hashed r hr
    · exact ⟨s, Block.txs_hashed hb s hs, rfl⟩

/-- `AddBlocks` adds hashed blocks one after another. -/
theorem Inv.foldlM_addBlock :
    ∀ (bs : List Block) {S S' : Store}, (∀ b ∈ bs, b.updateHash C = b) → S.Inv C →
      bs.foldlM (fun S b => Cryptopuff.addBlock C b S) S = .ok S' → S'.Inv C ∧ Extends S S'
  | [], S, S', _, hI, hc => by cases Except.ok.inj hc; exact ⟨hI, .refl S⟩
  | b :: bs, S, S', hb, hI, hc => by
      rw [List.foldlM_cons, Except.bind_eq_ok] at hc
      obtain ⟨S1, h1, h2⟩ := hc
      obtain ⟨hI1, hE1⟩ := hI.addBlock (hb b (List.mem_cons_self _ _)) h1
      obtain ⟨hI2, hE2⟩ := Inv.foldlM_addBlock bs (fun b' hb' => hb b' (List.mem_cons_of_mem _ hb'))
        hI1 h2
      exact ⟨hI2, hE1.trans hE2⟩

theorem Inv.addBlocks {bs : List Block} (hI : S.Inv C)
    (hc : DB.addBlocks C (bs.map (Block.updateHash C)) S = .ok S') : S'.Inv C ∧ Extends S S' := by
  unfold DB.addBlocks at hc
  split at hc
  · refine Inv.foldlM_addBlock _ (fun b hb => ?_) hI hc
    obtain ⟨b', -, rfl⟩ := List.mem_map.1 (List.mem_of_mem_take (List.mem_reverse.1 hb))
    exact Block.updateHash_idem C b'
  · cases Except.ok.inj hc
    exact ⟨hI, .refl S⟩

/-! ## Operations on `txs` and `peers` -/

/-- An operation that changes only `txs` and `peers` keeps the invariant when the rows of
`txs` stay keyed, non-`NULL` and hashed. -/
theorem Inv.of_txs (hI : S.Inv C) (hbl : S'.blocks = S.blocks) (hb : S'.balances = S.balances)
    (hi : S'.includedTxs = S.includedTxs) (hbt : S'.blockTxs = S.blockTxs)
    (hn : (S'.txs.map (·.hash)).Nodup)
    (ht : ∀ r ∈ S'.txs, r.hash ≠ emptyHash ∧ ∃ s : SignedTx, s.updateHash C = s ∧ r = s.row) :
    S'.Inv C ∧ Extends S S' := by
  have hL : ∀ h, S'.ledgerAt h = S.ledgerAt h := fun h => by
    simp only [ledgerAt, Ledger.mk.injEq]
    exact ⟨funext (balanceAt_congr hb h), includedAt_congr hi h⟩
  have hW := hI.wf
  have hh : S'.hashes = S.hashes := by rw [hashes, hbl]; rfl
  refine ⟨⟨⟨hh ▸ hW.hashes_nodup, hbl ▸ hW.hash_ne, by unfold BalancesKeyed; rw [hb]; exact hW.keyed,
    hb ▸ hh ▸ hW.balances_stored, hi ▸ hW.included_nodup, hi ▸ hh ▸ hW.included_stored,
    hi ▸ hW.included_ne, hbt ▸ hW.blockTxs_nodup, hbt ▸ hh ▸ hW.blockTxs_stored, hn,
    fun r hr => (ht r hr).1⟩, fun r hr => ?_, fun r hr => (ht r hr).2⟩,
    ⟨hbl ▸ List.prefix_refl _, fun r _ => hL r.hash⟩⟩
  obtain ⟨c, b, rfl, hsc, hLb⟩ := hI.chains r (hbl ▸ hr)
  exact ⟨c, b, rfl, hsc.mono fun r hr => hbl ▸ hr, (hL b.hash).trans hLb⟩

theorem Inv.addTx {s : SignedTx} (hI : S.Inv C) (hs : s.updateHash C = s)
    (hc : DB.addTx C s S = .ok S') : S'.Inv C ∧ Extends S S' := by
  obtain ⟨-, -, -, rfl⟩ := DB.addTx_eq_ok hc
  refine hI.of_txs (by simp) (by simp) (by simp) (by simp) (addTx_txs_nodup s hI.wf.txs_nodup)
    fun r hr => ?_
  rcases mem_addTx_txs hr with hr | ⟨rfl, hne⟩
  · exact ⟨hI.wf.txs_ne r hr, hI.txs_hashed r hr⟩
  · exact ⟨hne, s, hs, rfl⟩

theorem Inv.pendingTxs {tip : Hash} {limit : Int} (hI : S.Inv C)
    (hc : (DB.pendingTxs C tip limit S).map (·.1) = .ok S') : S'.Inv C ∧ Extends S S' := by
  cases hp : DB.pendingTxs C tip limit S with
  | error e => rw [hp] at hc; cases hc
  | ok res =>
      rw [hp] at hc
      cases Except.ok.inj hc
      obtain ⟨txs, hsub, he⟩ := DB.pendingTxs_store hp
      show res.1.Inv C ∧ Extends S res.1
      rw [he]
      exact hI.of_txs rfl rfl rfl rfl (hI.wf.txs_nodup.sublist (hsub.map _))
        fun r hr => ⟨hI.wf.txs_ne r (hsub.subset hr), hI.txs_hashed r (hsub.subset hr)⟩

/-- The genesis block, once `migrate` stores it, is a stored chain of its own. -/
theorem migrate_storedChain (hG : (genesisBlock C).hash ≠ emptyHash) :
    (migrate C).StoredChain C [genesisBlock C] where
  valid := .genesis
  stored b hb := by simp [List.mem_singleton.1 hb, migrate, hG]
  hashed b hb := by rw [List.mem_singleton.1 hb]; exact Block.updateHash_idem C _

theorem migrate_hashes (hG : (genesisBlock C).hash ≠ emptyHash) :
    (migrate C).hashes = [(genesisBlock C).hash] := by
  simp [hashes, migrate, hG]

@[simp] theorem migrate_ledgerAt (h : Hash) : (migrate C).ledgerAt h = Ledger.empty := rfl

/-- The store `migrate` creates satisfies the invariant. -/
theorem migrate_inv (C : Crypto) : (migrate C).Inv C := by
  have hblocks : ∀ r ∈ (migrate C).blocks,
      r = (genesisBlock C).row ∧ (genesisBlock C).hash ≠ emptyHash := by
    intro r hr
    unfold migrate at hr
    split_ifs at hr with hG
    · cases hr
    · exact ⟨List.mem_singleton.1 hr, hG⟩
  have hnodup : (migrate C).hashes.Nodup := by
    unfold hashes migrate; split_ifs <;> simp
  have hL : ∀ h, (migrate C).ledgerAt h = Ledger.empty := fun _ => rfl
  have hnil : ∀ {α : Type} {p : α → Prop}, ∀ x ∈ ([] : List α), p x := fun _ h => by cases h
  refine ⟨⟨hnodup, fun r hr => ?_, by simp [BalancesKeyed, migrate], hnil, List.nodup_nil, hnil,
    hnil, List.nodup_nil, hnil, List.nodup_nil, hnil⟩, fun r hr => ?_, hnil⟩
  · obtain ⟨rfl, hG⟩ := hblocks r hr
    exact hG
  · obtain ⟨rfl, -⟩ := hblocks r hr
    refine ⟨[], genesisBlock C, rfl, ⟨.genesis, fun b hb => ?_, fun b hb => ?_⟩,
      by rw [hL, Ledger.ofChain_append_singleton, Ledger.applyBlock_genesis]; rfl⟩
    · rw [List.mem_singleton.1 hb]; exact hr
    · rw [List.mem_singleton.1 hb]; exact Block.updateHash_idem C _

end Store

/-! ## Every step -/

/-- A committed transaction keeps the invariant and every stored block's ledger. -/
theorem Step.inv {C : Crypto} {S S' : Store} (hs : Step C S S') (hI : S.Inv C) :
    S'.Inv C ∧ S.Extends S' := by
  obtain ⟨op, hc⟩ := hs
  cases op with
  | addBlock b => exact hI.addBlock (Block.updateHash_idem C b) hc
  | addBlocks bs => exact hI.addBlocks hc
  | addTx s => exact hI.addTx (SignedTx.updateHash_idem C s) hc
  | pendingTxs tip limit => exact hI.pendingTxs hc
  | addPeer p =>
      cases Except.ok.inj hc
      unfold Store.insertPeer; split
      · exact ⟨hI, .refl S⟩
      · exact hI.of_txs rfl rfl rfl rfl hI.wf.txs_nodup
          fun r hr => ⟨hI.wf.txs_ne r hr, hI.txs_hashed r hr⟩
  | removePeer p =>
      cases Except.ok.inj hc
      exact hI.of_txs rfl rfl rfl rfl hI.wf.txs_nodup
        fun r hr => ⟨hI.wf.txs_ne r hr, hI.txs_hashed r hr⟩

/-- Every reachable store satisfies the invariant, and each step after it keeps every stored
block with its ledger. -/
theorem Reachable.inv {C : Crypto} {S : Store} (hS : Reachable C S) : S.Inv C := by
  induction hS with
  | refl => exact Store.migrate_inv C
  | tail _ hs ih => exact (hs.inv ih).1

end Cryptopuff
