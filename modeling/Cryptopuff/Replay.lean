import Cryptopuff.Chain

/-!
# Replays

`SignedTx.ValidSignature` verifies the signature over the JSON of the `Tx` alone, so the
`ID` a transfer is signed with is not covered: a copy of a signed transfer with another
`ID` is as valid as the original (`SignedTx.valid_with_id`). What keeps a transfer from
being included twice is its hash, the MD5 of the whole `SignedTx` JSON, `ID` included:
`addBlock` and `AddTx` refuse a transaction whose hash the block's parent, or the tip, has
included, and no hash occurs twice on a chain (`tx_replay_keyed_on_hash`).

A copy with a fresh `ID` has a fresh hash, and nothing else stops it. Under primitives whose
digest reads the whole input and whose signature is the digest it signs, the chain
`genesisBlock`, `block₁`, `block₂` is reachable (`Replay.replayStore`), and `block₂` carries the same signed
transfer twice (`replay_on_chain`).
-/

namespace Cryptopuff

/-- The signature check reads the `Tx`, the key and the signature, nothing else. -/
theorem SignedTx.validSignature_congr {C : Crypto} {s s' : SignedTx} (ht : s.toTx = s'.toTx)
    (hk : s.publicKey = s'.publicKey) (hs : s.signature = s'.signature) :
    s.validSignature C = s'.validSignature C := by
  unfold SignedTx.validSignature
  rw [ht, hk, hs]

/-- The signature covers the `Tx` only: a transaction's validity does not depend on its
`ID`. -/
theorem SignedTx.valid_with_id (C : Crypto) (s : SignedTx) (i : TxID) :
    ({ s with id := i } : SignedTx).valid C = s.valid C :=
  rfl

namespace Store

variable {C : Crypto} {S S' : Store}

/-- `addBlock` commits no block with a transaction its parent has included. -/
theorem addBlock_of_included {b : Block} (hW : S.WellFormed) {s : SignedTx} (hs : s ∈ b.txs)
    (hi : s.hash ∈ S.includedAt b.previousHash) (hc : addBlock C b S = .ok S') : S' = S := by
  rcases addBlock_eq_ok hW hc with ⟨-, rfl⟩ | ⟨row, previous, -, -, -, -, hA⟩
  · rfl
  · exact absurd hi (Ledger.TxsOk.hash_not_mem hA.txsOk s hs)

/-- `DB.AddTx` takes no transaction the tip has included. -/
theorem addTx_not_included {s : SignedTx} (hW : S.WellFormed) (hc : DB.addTx C s S = .ok S') :
    ∃ tip, bestBlockHash S = .ok tip ∧ s.hash ∉ S.includedAt tip := by
  obtain ⟨tip, ht, hv, -⟩ := DB.addTx_eq_ok hc
  have htip : tip ≠ emptyHash := by
    unfold bestBlockHash at ht
    split at ht
    · next r hr => cases ht; exact hW.hash_ne r (bestRow_mem hr)
    · cases ht
  refine ⟨tip, ht, fun hi => ?_⟩
  have hne : s.hash ≠ emptyHash := by
    obtain ⟨l, hl, he⟩ := List.mem_map.1 hi
    exact he ▸ hW.included_ne l (List.mem_filter.1 hl).1
  have hsel := ((validTx_eq_ok htip).1 hv).2.2.2
  rw [(selectIncluded_iff htip hne).2 hi] at hsel
  cases hsel

end Store

open Store

/-! ## A replay on a chain -/

namespace Replay

/-- The digest of the construction: the marker `0 0 0 1`, then a 96-bit polynomial hash of
the whole input. -/
def polyMd5 (x : List UInt8) : Hash :=
  ⟨[0, 0, 0, 1] ++ beBytes 12 (x.foldl (fun acc b => (acc * 257 + b.toNat) % 2 ^ 96) 0), by simp⟩

/-- Primitives under which a signature is the digest it signs, under the one key. -/
def C₂ : Crypto where
  md5 := polyMd5
  parsePKCS1PublicKey _ := some ⟨1, 1⟩
  marshalPKCS1PublicKey _ := []
  verifyPSS _ d sig := sig == d.bytes

/-- The V2 address of the key. -/
def payer : Address := some (polyMd5 []).bytes

/-- One coin from `payer` to the address `[3]`. -/
def transfer : Tx := { destination := some [3], amount := 1, source := payer, fee := 0 }

/-- The signature of `transfer`. -/
def transferSignature : Bytes := some (polyMd5 (utf8 (Json.render transfer.toJson))).bytes

/-- `transfer`, signed, with the `ID` `i`. -/
def signedWith (i : TxID) : SignedTx :=
  { toTx := transfer, hash := emptyHash, id := i, signature := transferSignature,
    publicKey := some [] }

def id₀ : TxID := ⟨List.replicate 16 0, by simp⟩

def id₁ : TxID := ⟨List.replicate 15 0 ++ [1], by simp⟩

/-- The first block pays `payer` the reward. -/
def block₁ : Block := newBlock C₂ (genesisBlock C₂) 0 payer 1000 none

/-- The second block carries the transfer twice, with two `ID`s. -/
def block₂ : Block := newBlock C₂ block₁ 0 none 0 (some [signedWith id₀, signedWith id₁])

theorem block₂_txs : block₂.txs = [(signedWith id₀).updateHash C₂, (signedWith id₁).updateHash C₂] :=
  rfl

set_option maxRecDepth 10000 in
theorem transferSignature_valid : (signedWith id₀).validSignature C₂ = .ok () := rfl

theorem signedWith_validIn (i : TxID) : ((signedWith i).updateHash C₂).ValidIn C₂ :=
  ⟨Tx.amountsOk_of_validAmounts rfl,
    (SignedTx.validSignature_congr rfl rfl rfl).trans transferSignature_valid⟩

/-- The store after `AddBlock(block₁)` and `AddBlock(block₂)` on a new database. -/
def replayStore : Store := (Op.addBlock block₂).apply C₂ ((Op.addBlock block₁).apply C₂ (migrate C₂))

set_option maxRecDepth 10000 in
/-- Both blocks commit: `replayStore` is reachable and holds the chain `genesisBlock`, `block₁`,
`block₂`. -/
theorem replayStore_spec : Reachable C₂ replayStore ∧
    replayStore.StoredChain C₂ ([genesisBlock C₂, block₁] ++ [block₂]) := by
  have hG : (genesisBlock C₂).hash ≠ emptyHash := by decide
  have hv₁ : block₁.ValidOn C₂ (genesisBlock C₂) :=
    ⟨rfl, rfl, rfl, by decide, by decide, by decide, fun s hs => by cases hs⟩
  have hsc₀ : (migrate C₂).StoredChain C₂ ([] ++ [genesisBlock C₂]) := migrate_storedChain hG
  have hb₁ : block₁.updateHash C₂ = block₁ := Block.updateHash_idem C₂ _
  have hb₂ : block₂.updateHash C₂ = block₂ := Block.updateHash_idem C₂ _
  obtain ⟨S₁, hadd₁, hS₁, hbl₁, hsc₁, hL₁, -⟩ := Reachable.addBlock_step .refl hsc₀ hb₁
    (by rw [migrate_hashes hG]; decide) (by decide) hv₁ trivial
  have hv₂ : block₂.ValidOn C₂ block₁ := by
    refine ⟨rfl, rfl, rfl, by decide, by decide, by decide, fun s hs => ?_⟩
    rw [block₂_txs] at hs
    rcases List.mem_pair.1 hs with rfl | rfl <;> exact signedWith_validIn _
  have hL : S₁.ledgerAt block₁.hash = Ledger.empty.applyBlock block₁ := hL₁
  obtain ⟨S₂, hadd₂, hS₂, -, hsc₂, -, -⟩ := hS₁.addBlock_step hsc₁ hb₂
    (by rw [Store.hashes, hbl₁, List.map_append, ← Store.hashes, migrate_hashes hG]; decide)
    (by decide) hv₂ (by
      rw [hL, block₂_txs]
      exact ⟨⟨signedWith_validIn _, by decide, by decide, by decide, by decide⟩,
        ⟨signedWith_validIn _, by decide, by decide, by decide, by decide⟩, trivial⟩)
  rw [replayStore, Op.apply_of_run (show Op.run C₂ (.addBlock block₁) _ = .ok S₁ by rw [Op.run, hb₁]; exact hadd₁),
    Op.apply_of_run (show Op.run C₂ (.addBlock block₂) S₁ = .ok S₂ by rw [Op.run, hb₂]; exact hadd₂)]
  exact ⟨hS₂, hsc₂⟩

end Replay

/-- What keeps a transfer from being included twice is its hash alone. A transaction's
validity does not depend on its `ID`; in a reachable store no hash occurs twice on the chain
of a stored block; adding a block with a transaction that its parent has included commits
nothing new, and `AddTx` takes a transaction only if the tip has not included its hash. -/
theorem tx_replay_keyed_on_hash {C : Crypto} {S : Store} (hS : Reachable C S) :
    (∀ (s : SignedTx) (i : TxID), ({ s with id := i } : SignedTx).valid C = s.valid C) ∧
    (∀ r ∈ S.blocks, ∃ chain b, r = b.row ∧ S.StoredChain C (chain ++ [b]) ∧
      ((chain ++ [b]).flatMap fun x => x.txs.map (·.hash)).Nodup) ∧
    (∀ b S', ∀ s ∈ (b.updateHash C).txs, s.hash ∈ S.includedAt b.previousHash →
      Op.run C (.addBlock b) S = .ok S' → S' = S) ∧
    ∀ s S', Op.run C (.addTx s) S = .ok S' →
      ∃ tip, bestBlockHash S = .ok tip ∧ (s.updateHash C).hash ∉ S.includedAt tip := by
  have hI := hS.inv
  refine ⟨SignedTx.valid_with_id C, fun r hr => ?_, fun b S' s hs hi hc => ?_,
    fun s S' hc => addTx_not_included hI.wf hc⟩
  · obtain ⟨chain, b, rfl, hsc, -⟩ := hI.chain_of_mem hr
    refine ⟨chain, b, rfl, hsc, ?_⟩
    rw [← Ledger.ofChain_inc]
    exact hsc.valid.inc_nodup
  · exact addBlock_of_included hI.wf hs (by simpa using hi) hc

theorem tx_replay_keyed_on_hash_replayStore : Reachable Replay.C₂ Replay.replayStore ∧
    (∀ (s : SignedTx) (i : TxID), ({ s with id := i } : SignedTx).valid Replay.C₂ = s.valid Replay.C₂) ∧
    (∀ r ∈ Replay.replayStore.blocks, ∃ chain b, r = b.row ∧
      Replay.replayStore.StoredChain Replay.C₂ (chain ++ [b]) ∧
      ((chain ++ [b]).flatMap fun x => x.txs.map (·.hash)).Nodup) ∧
    (∀ b S', ∀ s ∈ (b.updateHash Replay.C₂).txs, s.hash ∈ Replay.replayStore.includedAt b.previousHash →
      Op.run Replay.C₂ (.addBlock b) Replay.replayStore = .ok S' → S' = Replay.replayStore) ∧
    ∀ s S', Op.run Replay.C₂ (.addTx s) Replay.replayStore = .ok S' →
      ∃ tip, bestBlockHash Replay.replayStore = .ok tip ∧
        (s.updateHash Replay.C₂).hash ∉ Replay.replayStore.includedAt tip :=
  ⟨Replay.replayStore_spec.1, tx_replay_keyed_on_hash Replay.replayStore_spec.1⟩

namespace Replay

/-- A reachable store whose last block carries one signed transfer twice. -/
theorem replay_on_chain : ∃ S, Reachable C₂ S ∧ ∃ chain b, S.StoredChain C₂ (chain ++ [b]) ∧
    ∃ s ∈ b.txs, ∃ s' ∈ b.txs, s ≠ s' ∧ s.toTx = s'.toTx ∧ s.publicKey = s'.publicKey ∧
      s.signature = s'.signature := by
  refine ⟨replayStore, replayStore_spec.1, _, _, replayStore_spec.2, (signedWith id₀).updateHash C₂,
    by rw [block₂_txs]; exact List.mem_cons_self _ _, (signedWith id₁).updateHash C₂,
    by rw [block₂_txs]; exact List.mem_cons_of_mem _ (List.mem_singleton_self _), fun h => ?_,
    rfl, rfl, rfl⟩
  have h' := congrArg (fun s => s.id.bytes) h
  simp [SignedTx.updateHash, signedWith, id₀, id₁] at h'

end Replay

end Cryptopuff
