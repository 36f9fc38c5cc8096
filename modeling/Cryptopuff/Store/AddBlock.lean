import Cryptopuff.Store.Statements
import Cryptopuff.Ledger

/-!
# What `addBlock` does

`addBlock_eq_ok` says everything a successful `addBlock` can do: nothing, when the block is
stored already, or insert the block's row and give it the rows of
`Ledger.applyBlock (ledger of the parent) b`, after the block passed `Block.Valid` and each
transfer passed `validTx` (`Ledger.TxsOk`), touching no other block's rows. It is built from
one lemma per step: `validTx_eq_ok`, `addBlockTx_eq_ok` for one pass of the transaction loop,
`foldlM_addBlockTx_eq_ok` for the loop and `applyBlock_eq_ok` for what follows the insert.
-/

namespace Cryptopuff

namespace Store

variable {S S' : Store}

/-- The ledger the rows of block `h` hold. -/
def ledgerAt (S : Store) (h : Hash) : Ledger := ⟨S.balanceAt h, S.includedAt h⟩

@[simp] theorem ledgerAt_bal (h : Hash) : (S.ledgerAt h).bal = S.balanceAt h := rfl

@[simp] theorem ledgerAt_inc (h : Hash) : (S.ledgerAt h).inc = S.includedAt h := rfl

/-- `AddTx` touches no block's rows. -/
@[simp] theorem addTx_ledgerAt (s : SignedTx) (h : Hash) : (S.addTx s).ledgerAt h = S.ledgerAt h := by
  unfold ledgerAt balanceAt balancesAt includedAt
  rw [addTx_balances, addTx_includedTxs]

/-- What a statement of `addBlock` on block `h` leaves alone: the other tables, and the
balances of every other block. -/
structure Touches (h : Hash) (S S' : Store) : Prop where
  blocks_eq : S'.blocks = S.blocks
  peers_eq : S'.peers = S.peers
  keyed : S.BalancesKeyed → S'.BalancesKeyed
  balanceAt_eq : ∀ h', h' ≠ h → ∀ a, S'.balanceAt h' a = S.balanceAt h' a
  balance_rows : ∀ r ∈ S'.balances, r.blockHash = h ∨ r.blockHash ∈ S.balances.map (·.blockHash)

theorem Touches.refl (h : Hash) (S : Store) : Touches h S S :=
  ⟨rfl, rfl, id, fun _ _ _ => rfl, fun _ hr => .inr (List.mem_map_of_mem _ hr)⟩

/-- Statements on one block compose. -/
theorem Touches.trans {h : Hash} {S₁ S₂ S₃ : Store} (h₁ : Touches h S₁ S₂) (h₂ : Touches h S₂ S₃) :
    Touches h S₁ S₃ where
  blocks_eq := h₂.blocks_eq.trans h₁.blocks_eq
  peers_eq := h₂.peers_eq.trans h₁.peers_eq
  keyed := h₂.keyed ∘ h₁.keyed
  balanceAt_eq h' hh a := (h₂.balanceAt_eq h' hh a).trans (h₁.balanceAt_eq h' hh a)
  balance_rows r hr := by
    rcases h₂.balance_rows r hr with hr | hr
    · exact .inl hr
    · obtain ⟨r', hr', he⟩ := List.mem_map.1 hr
      rw [← he]
      exact h₁.balance_rows r' hr'

/-- A statement that changes no balance row. -/
theorem Touches.of_balances_eq {h : Hash} (hb : S'.balances = S.balances)
    (hbl : S'.blocks = S.blocks) (hp : S'.peers = S.peers) : Touches h S S' where
  blocks_eq := hbl
  peers_eq := hp
  keyed := by unfold BalancesKeyed; rw [hb]; exact id
  balanceAt_eq _ _ _ := by unfold balanceAt balancesAt; rw [hb]
  balance_rows r hr := .inr (List.mem_map_of_mem _ (hb ▸ hr))

theorem Touches.debit {h : Hash} (hh : h ≠ emptyHash) (a : List UInt8) (d : Int) :
    Touches h S (S.debit h a d) where
  blocks_eq := rfl
  peers_eq := rfl
  keyed := BalancesKeyed.debit h a d
  balanceAt_eq h' hh' a' := by rw [balanceAt_debit hh, if_neg (fun h3 => hh' h3.1), sub_zero]
  balance_rows r hr := by
    obtain ⟨r', hr', rfl⟩ := List.mem_map.1 (show r ∈ S.balances.map (debitRow h a d) from hr)
    exact .inr (List.mem_map.2 ⟨r', hr', congrArg Prod.fst (debitRow_key h a d r').symm⟩)

theorem Touches.credit {h : Hash} {a : List UInt8} {d : Int} (hc : S.credit h a d = .ok S') :
    Touches h S S' := by
  obtain ⟨-, ⟨rows, rfl⟩, hk, hb⟩ := credit_eq_ok hc
  refine ⟨rfl, rfl, hk, fun h' hh' a' => by rw [hb, if_neg fun h3 => hh' h3.1, add_zero], ?_⟩
  intro r hr
  unfold credit at hc
  split_ifs at hc with h1 h2
  · cases Except.ok.inj hc
    obtain ⟨r', hr', rfl⟩ := List.mem_map.1 hr
    exact .inr (List.mem_map.2 ⟨r', hr', congrArg Prod.fst (creditRow_key h a d r').symm⟩)
  · cases Except.ok.inj hc
    rcases List.mem_append.1 hr with hr | hr
    · exact .inr (List.mem_map_of_mem _ hr)
    · rw [List.mem_singleton.1 hr]; exact .inl rfl

theorem Touches.deleteZeroBalances (h : Hash) (hK : S.BalancesKeyed) :
    Touches h S S.deleteZeroBalances where
  blocks_eq := rfl
  peers_eq := rfl
  keyed _ := hK.deleteZeroBalances
  balanceAt_eq h' _ a := balanceAt_deleteZeroBalances hK h' a
  balance_rows _ hr := .inr (List.mem_map_of_mem _ (List.mem_filter.1 hr).1)

/-! ## Well-formed tables -/

/-- What the constraints of the schema and the order of `addBlock`'s statements keep: the
primary keys hold, no key column is `NULL`, and every balance and link row belongs to a stored
block. -/
structure WellFormed (S : Store) : Prop where
  hashes_nodup : S.hashes.Nodup
  hash_ne : ∀ r ∈ S.blocks, r.hash ≠ emptyHash
  keyed : S.BalancesKeyed
  balances_stored : ∀ r ∈ S.balances, r.blockHash ∈ S.hashes
  included_nodup : S.includedTxs.Nodup
  included_stored : ∀ l ∈ S.includedTxs, l.blockHash ∈ S.hashes
  included_ne : ∀ l ∈ S.includedTxs, l.txHash ≠ emptyHash
  blockTxs_nodup : S.blockTxs.Nodup
  blockTxs_stored : ∀ l ∈ S.blockTxs, l.blockHash ∈ S.hashes
  txs_nodup : (S.txs.map (·.hash)).Nodup
  txs_ne : ∀ r ∈ S.txs, r.hash ≠ emptyHash

/-- A hash no stored block has owns no row. -/
theorem WellFormed.fresh (hW : S.WellFormed) {h : Hash} (hh : h ∉ S.hashes) :
    S.balancesAt h = [] ∧ (S.includedTxs.filter fun l => l.blockHash == h) = [] ∧
      S.includedAt h = [] ∧ ∀ l ∈ S.blockTxs, l.blockHash ≠ h := by
  have hi : (S.includedTxs.filter fun l => l.blockHash == h) = [] :=
    List.eq_nil_iff_forall_not_mem.2 fun l hl => by
      obtain ⟨hl', he⟩ := List.mem_filter.1 hl
      exact hh (beq_iff_eq.1 he ▸ hW.included_stored l hl')
  refine ⟨List.eq_nil_iff_forall_not_mem.2 fun r hr => ?_, hi, by rw [includedAt, hi]; rfl,
    fun l hl he => hh (he ▸ hW.blockTxs_stored l hl)⟩
  obtain ⟨hr', rfl⟩ := mem_balancesAt.1 hr
  exact hh (hW.balances_stored r hr')

/-! ## `validTx` -/

/-- `selectBalance` reads `balanceAt`, refusing a value outside `int64`. -/
theorem selectBalance_eq {h : Hash} (hh : h ≠ emptyHash) (a : List UInt8) :
    S.selectBalance h a = if Int64.InRange (S.balanceAt h a) then .ok (S.balanceAt h a)
      else .error (.scan "converting driver.Value type float64 to a int64: invalid syntax") := by
  have hne : (h != emptyHash) = true := by simpa using hh
  have hf : (S.balancesAt h).find? (·.address == a) =
      S.balances.find? fun r => Hash.sqlEq r.blockHash h && r.address == a := by
    rw [balancesAt, List.find?_filter]
    congr 1
    funext r
    rw [Bool.eq_iff_iff]
    simp [Hash.sqlEq, hne]
  unfold selectBalance balanceAt
  rw [hf]
  cases S.balances.find? fun r => Hash.sqlEq r.blockHash h && r.address == a with
  | none => rfl
  | some r => rfl

/-- `validTx` passes exactly on a valid transaction whose source's balance fits in `int64` and
covers it, and whose hash the block has not included. -/
theorem validTx_eq_ok {C : Crypto} {s : SignedTx} {h : Hash} (hh : h ≠ emptyHash) :
    validTx C S s h = .ok () ↔ s.ValidIn C ∧ Int64.InRange (S.balanceAt h (Bytes.data s.source)) ∧
      s.toTx.requiredBalance.val ≤ S.balanceAt h (Bytes.data s.source) ∧
      S.selectIncluded h s.hash = false := by
  simp only [validTx, selectBalance_eq hh]
  cases hv : s.valid C with
  | error e =>
      simp only [Except.error_bind, reduceCtorEq, false_iff]
      exact fun h3 => by rw [SignedTx.valid_eq_ok.2 h3.1] at hv; cases hv
  | ok u =>
      have hvi := SignedTx.valid_eq_ok.1 hv
      simp only [Except.ok_bind, hvi, true_and]
      by_cases h1 : Int64.InRange (S.balanceAt h (Bytes.data s.source))
      · by_cases h2 : S.balanceAt h (Bytes.data s.source) < s.toTx.requiredBalance.val
        · simp [h1, h2, throw, throwThe, MonadExceptOf.throw]
        · cases h3 : S.selectIncluded h s.hash <;>
            simp [h1, h2, h3, throw, throwThe, MonadExceptOf.throw, pure, Except.pure, not_lt.1 h2]
      · simp [h1]

theorem balanceAt_congr {S S' : Store} (hb : S'.balances = S.balances) (h : Hash) (a : List UInt8) :
    S'.balanceAt h a = S.balanceAt h a := by
  unfold balanceAt balancesAt; rw [hb]

theorem includedAt_congr {S S' : Store} (hb : S'.includedTxs = S.includedTxs) (h : Hash) :
    S'.includedAt h = S.includedAt h := by
  unfold includedAt; rw [hb]

/-! ## The transaction loop -/

/-- The transaction loop of `addBlock` acts on `txs` alone. -/
theorem foldl_addTx_txs_congr {S₁ S₂ : Store} (h : S₁.txs = S₂.txs) (txs : List SignedTx) :
    (txs.foldl addTx S₁).txs = (txs.foldl addTx S₂).txs := by
  induction txs generalizing S₁ S₂ with
  | nil => exact h
  | cons s txs ih => exact ih (by simp only [addTx_txs, h])

/-- What the transaction loop of `addBlock` on block `h` did to go from `S` to `S'` through
`txs`: each transfer passed `validTx` on the ledger its predecessors left, the ledger of `h`
is `Ledger.applyTx` of them, and each is recorded in `txs`, `included_txs` and `block_txs`. -/
structure Applied (C : Crypto) (h : Hash) (S S' : Store) (txs : List SignedTx) : Prop where
  txsOk : (S.ledgerAt h).TxsOk C txs
  ledgerAt_eq : S'.ledgerAt h = txs.foldl Ledger.applyTx (S.ledgerAt h)
  touches : Touches h S S'
  txs_eq : S'.txs = (txs.foldl addTx S).txs
  includedTxs_eq : S'.includedTxs = S.includedTxs ++ txs.map fun s => ⟨h, s.hash⟩
  blockTxs_eq : S'.blockTxs = S.blockTxs ++ txs.map fun s => ⟨h, s.hash⟩
  includedTxs_nodup : S.includedTxs.Nodup → S'.includedTxs.Nodup
  blockTxs_nodup : S.blockTxs.Nodup → S'.blockTxs.Nodup

theorem Applied.nil (C : Crypto) (h : Hash) (S : Store) : Applied C h S S [] :=
  ⟨trivial, rfl, .refl h S, rfl, by simp, by simp, id, id⟩

theorem Applied.cons {C : Crypto} {h : Hash} {S₁ S₂ S₃ : Store} {s : SignedTx}
    {txs : List SignedTx} (h₁ : Applied C h S₁ S₂ [s]) (h₂ : Applied C h S₂ S₃ txs) :
    Applied C h S₁ S₃ (s :: txs) where
  txsOk := ⟨h₁.txsOk.1, by simpa [h₁.ledgerAt_eq] using h₂.txsOk⟩
  ledgerAt_eq := by simp [h₂.ledgerAt_eq, h₁.ledgerAt_eq]
  touches := h₁.touches.trans h₂.touches
  txs_eq := h₂.txs_eq.trans (foldl_addTx_txs_congr h₁.txs_eq txs)
  includedTxs_eq := by simp [h₂.includedTxs_eq, h₁.includedTxs_eq]
  blockTxs_eq := by simp [h₂.blockTxs_eq, h₁.blockTxs_eq]
  includedTxs_nodup := h₂.includedTxs_nodup ∘ h₁.includedTxs_nodup
  blockTxs_nodup := h₂.blockTxs_nodup ∘ h₁.blockTxs_nodup

/-- One pass of the loop: the transfer passed `validTx` against the ledger of block `h`, which
now holds `Ledger.applyTx` of it, and the transaction is recorded. -/
theorem addBlockTx_eq_ok {C : Crypto} {h : Hash} {fee fee' : Int64} {s : SignedTx}
    (hh : h ≠ emptyHash) (hc : addBlockTx C h (S, fee) s = .ok (S', fee')) :
    fee' = fee + s.fee ∧ Applied C h S S' [s] := by
  simp only [addBlockTx, Except.bind_eq_ok] at hc
  obtain ⟨⟨⟩, hv, S1, hcr, S2, hinc, S3, hbt, hret⟩ := hc
  obtain ⟨rfl, rfl⟩ := Prod.mk.inj (Except.ok.inj hret)
  obtain ⟨hvalid, hrange, hcover, hsel⟩ := (validTx_eq_ok hh).1 hv
  obtain ⟨-, ⟨rows, hS1⟩, -, hbal⟩ := credit_eq_ok hcr
  obtain ⟨-, hne, hni, hS2⟩ := insertIncluded_eq_ok.1 hinc
  obtain ⟨-, -, hnb, hS3⟩ := insertBlockTx_eq_ok.1 hbt
  have hi : S1.includedTxs = S.includedTxs := by rw [hS1]; rfl
  have hb3 : S3.balances = S1.balances := by rw [hS3, hS2]; simp
  have hi3 : S3.includedTxs = S.includedTxs ++ [⟨h, s.hash⟩] := by rw [hS3, hS2]; simp [hi]
  have ht3 : S3.blockTxs = S.blockTxs ++ [⟨h, s.hash⟩] := by rw [hS3, hS2]; simp [hS1]
  have hfresh : s.hash ∉ S.includedAt h := fun hm => by
    rw [← selectIncluded_iff hh hne] at hm; rw [hm] at hsel; cases hsel
  have hrow : S.hasBalanceRow h (Bytes.data s.source) = true :=
    hasBalanceRow_of_ne_zero (by have := hvalid.amounts.requiredBalance_pos; omega)
  refine ⟨rfl, ⟨⟨hvalid, hrange, hcover, hfresh, hne⟩, trivial⟩, ?_, ?_, ?_, by simpa using hi3,
    by simpa using ht3, fun hn => ?_, fun hn => ?_⟩
  · simp only [ledgerAt, List.foldl_cons, List.foldl_nil, Ledger.applyTx]
    congr 1
    · funext a
      rw [balanceAt_congr hb3 h a, hbal, balanceAt_debit hh]
      simp only [true_and, hrow, and_true]
    · rw [includedAt_append hi3]
      simp
  · exact (Touches.debit hh _ _).trans ((Touches.credit hcr).trans
      (Touches.of_balances_eq hb3 (by simp [hS3, hS2, hS1]) (by simp [hS3, hS2, hS1])))
  · simp [hS3, hS2, hS1]
  · rw [hi3]
    exact List.nodup_append.2 ⟨hn, List.nodup_singleton _, List.disjoint_singleton.2 (by simpa [hi] using hni)⟩
  · rw [ht3]
    refine List.nodup_append.2 ⟨hn, List.nodup_singleton _, List.disjoint_singleton.2 ?_⟩
    simpa [hS2, hS1] using hnb

/-- The loop: the fee accumulator is `Block.feeTotal`'s fold, and the transfers were applied
one after another. -/
theorem foldlM_addBlockTx_eq_ok {C : Crypto} {h : Hash} (hh : h ≠ emptyHash) :
    ∀ (txs : List SignedTx) {S S' : Store} {fee fee' : Int64},
      txs.foldlM (addBlockTx C h) (S, fee) = .ok (S', fee') →
        fee' = txs.foldl (fun f s => f + s.fee) fee ∧ Applied C h S S' txs
  | [], S, S', fee, fee', hc => by
      obtain ⟨rfl, rfl⟩ := Prod.mk.inj (Except.ok.inj hc)
      exact ⟨rfl, .nil C h S⟩
  | s :: txs, S, S', fee, fee', hc => by
      rw [List.foldlM_cons, Except.bind_eq_ok] at hc
      obtain ⟨⟨S1, fee1⟩, h1, h2⟩ := hc
      obtain ⟨rfl, hA1⟩ := addBlockTx_eq_ok hh h1
      obtain ⟨rfl, hA2⟩ := foldlM_addBlockTx_eq_ok hh txs h2
      exact ⟨rfl, hA1.cons hA2⟩

/-! ## After the insert -/

theorem Touches.copyBalances {h p : Hash} (hc : S.copyBalances h p = .ok S') (hp : p ≠ emptyHash) :
    Touches h S S' := by
  obtain ⟨rfl, hK⟩ := copyBalances_eq_ok hc
  refine ⟨rfl, rfl, hK, fun h' hh a => balanceAt_copy_of_ne hc hp hh a, fun r hr => ?_⟩
  rcases List.mem_append.1 hr with hr | hr
  · exact .inr (List.mem_map_of_mem _ hr)
  · obtain ⟨r', -, rfl⟩ := List.mem_map.1 hr
    exact .inl rfl

/-- `credit` changes only `balances`; on the ledger of `h` it is `Ledger.credit`. -/
theorem ledgerAt_credit {h : Hash} {a : List UInt8} {d : Int} (hc : S.credit h a d = .ok S') :
    S'.ledgerAt h = (S.ledgerAt h).credit a d ∧ S'.includedTxs = S.includedTxs ∧
      S'.blockTxs = S.blockTxs ∧ S'.txs = S.txs := by
  obtain ⟨-, ⟨rows, rfl⟩, -, hb⟩ := credit_eq_ok hc
  refine ⟨?_, rfl, rfl, rfl⟩
  simp only [ledgerAt, Ledger.credit, Ledger.mk.injEq]
  exact ⟨funext fun a' => by simp [hb], rfl⟩

theorem ledgerAt_deleteZeroBalances (hK : S.BalancesKeyed) (h : Hash) :
    S.deleteZeroBalances.ledgerAt h = S.ledgerAt h := by
  simp only [ledgerAt, Ledger.mk.injEq]
  exact ⟨funext (balanceAt_deleteZeroBalances hK h), rfl⟩

/-- After the two copies a new block reads its parent's ledger. -/
theorem ledgerAt_copy {S₁ : Store} {h p : Hash} (hp : p ≠ emptyHash)
    (hfb : S.balancesAt h = []) (hfi : S.includedAt h = [])
    (h₁ : S.copyBalances h p = .ok S₁) (h₂ : S₁.copyIncluded h p = .ok S') :
    S'.ledgerAt h = S.ledgerAt p := by
  obtain ⟨hS1, -⟩ := copyBalances_eq_ok h₁
  obtain ⟨rfl, -⟩ := copyIncluded_eq_ok h₂
  simp only [ledgerAt, Ledger.mk.injEq]
  constructor
  · funext a
    exact balanceAt_copy h₁ hp hfb a
  · have hi1 : S₁.includedTxs = S.includedTxs := by rw [hS1]
    rw [includedAt_append rfl, copiedIncluded_filter hp, if_pos rfl, includedAt_congr hi1,
      includedAt_congr hi1, hfi, List.nil_append]

/-- What `applyBlock` did after the insert of `b`'s row: `b` is valid on its parent, its
transfers passed on the parent's ledger, and the ledger of `b` is `Ledger.applyBlock` of the
parent's; only rows of `b` were added. -/
structure BlockApplied (C : Crypto) (b previous : Block) (S S' : Store) : Prop where
  valid : b.ValidOn C previous
  txsOk : (S.ledgerAt b.previousHash).TxsOk C b.txs
  ledgerAt_eq : S'.ledgerAt b.hash = (S.ledgerAt b.previousHash).applyBlock b
  touches : Touches b.hash S S'
  txs_eq : S'.txs = (b.txs.foldl addTx S).txs
  includedTxs_eq : S'.includedTxs = S.includedTxs ++ S.copiedIncluded b.hash b.previousHash ++
    b.txs.map fun s => ⟨b.hash, s.hash⟩
  blockTxs_eq : S'.blockTxs = S.blockTxs ++ b.txs.map fun s => ⟨b.hash, s.hash⟩
  includedTxs_nodup : S.includedTxs.Nodup → S'.includedTxs.Nodup
  blockTxs_nodup : S.blockTxs.Nodup → S'.blockTxs.Nodup

theorem applyBlock_eq_ok {C : Crypto} {b previous : Block} (hK : S.BalancesKeyed)
    (hh : b.hash ≠ emptyHash) (hp : b.previousHash ≠ emptyHash)
    (hfb : S.balancesAt b.hash = []) (hfi : S.includedAt b.hash = [])
    (hc : applyBlock C b previous S = .ok S') : BlockApplied C b previous S S' := by
  simp only [applyBlock, Except.bind_eq_ok] at hc
  obtain ⟨S1, h1, S2, h2, ⟨⟩, hv, ⟨S3, fee⟩, hl, hrest⟩ := hc
  obtain ⟨hS1, -⟩ := copyBalances_eq_ok h1
  obtain ⟨hS2, hn2⟩ := copyIncluded_eq_ok h2
  obtain ⟨rfl, hA⟩ := foldlM_addBlockTx_eq_ok hh b.txs hl
  have hL2 := ledgerAt_copy hp hfb hfi h1 h2
  have hT2 : Touches b.hash S S2 := (Touches.copyBalances h1 hp).trans
    (Touches.of_balances_eq (by rw [hS2]) (by rw [hS2]) (by rw [hS2]))
  have h4 : ∃ S4, S' = S4.deleteZeroBalances ∧ Touches b.hash S3 S4 ∧
      S4.ledgerAt b.hash = (if 0 < b.feeTotal.val then
        (S3.ledgerAt b.hash).credit (Bytes.data b.rewardOutput.destination) b.feeTotal.val
      else S3.ledgerAt b.hash) ∧ S4.includedTxs = S3.includedTxs ∧ S4.blockTxs = S3.blockTxs ∧
      S4.txs = S3.txs := by
    unfold Block.feeTotal
    dsimp only at hrest
    split at hrest
    · obtain ⟨S4, hcr, hret⟩ := Except.bind_eq_ok.1 hrest
      exact ⟨S4, (Except.ok.inj hret).symm, .credit hcr,
        by rw [if_pos ‹_›]; exact (ledgerAt_credit hcr).1, (ledgerAt_credit hcr).2⟩
    · exact ⟨S3, (Except.ok.inj hrest).symm, .refl _ _, by rw [if_neg ‹_›], rfl, rfl, rfl⟩
  obtain ⟨S4, rfl, hT4, hL4, hi4, hb4, ht4⟩ := h4
  have hT := hT2.trans (hA.touches.trans hT4)
  have hS2t : S2.txs = S.txs := by rw [hS2, hS1]
  refine ⟨Block.valid_eq_ok.1 hv, hL2 ▸ hA.txsOk, ?_, hT.trans (.deleteZeroBalances _ (hT.keyed hK)),
    ?_, ?_, ?_, fun hn => ?_, fun hn => ?_⟩
  · rw [ledgerAt_deleteZeroBalances (hT.keyed hK), hL4, hA.ledgerAt_eq, hL2, Ledger.applyBlock]
  · rw [deleteZeroBalances_eq]
    exact ht4.trans (hA.txs_eq.trans (foldl_addTx_txs_congr hS2t _))
  · simp [deleteZeroBalances_eq, hi4, hA.includedTxs_eq, hS2, hS1]
    rfl
  · simp [deleteZeroBalances_eq, hb4, hA.blockTxs_eq, hS2, hS1]
  · simpa [deleteZeroBalances_eq, hi4] using hA.includedTxs_nodup (hn2 (by rwa [hS1]))
  · have := hA.blockTxs_nodup (by rwa [hS2, hS1])
    simpa [deleteZeroBalances_eq, hb4] using this

/-! ## `addBlock` -/

/-- Everything a successful `addBlock` can do: nothing, when a block of the same hash is
stored, or insert `b`'s row under a stored parent and apply `b`. -/
theorem addBlock_eq_ok {C : Crypto} {b : Block} (hW : S.WellFormed)
    (hc : addBlock C b S = .ok S') :
    (b.hash ∈ S.hashes ∧ S' = S) ∨
      ∃ row previous, S.selectBlock b.previousHash = some row ∧
        decodeBlock C row.block = .ok previous ∧ b.hash ≠ emptyHash ∧ b.hash ∉ S.hashes ∧
        BlockApplied C b previous { S with blocks := S.blocks ++ [b.row] } S' := by
  unfold addBlock at hc
  split at hc
  · cases hc
  · next row hrow =>
    split at hc
    · cases hc
    · next previous hdec =>
      split at hc
      · next hpk => exact .inl ⟨insertBlock_eq_pk hpk, (Except.ok.inj hc).symm⟩
      · cases hc
      · next hins =>
        obtain ⟨hne, hnot, rfl⟩ := insertBlock_eq_ok.1 hins
        obtain ⟨hfb, -, hfi, -⟩ := hW.fresh hnot
        exact .inr ⟨row, previous, hrow, hdec, hne, hnot,
          applyBlock_eq_ok hW.keyed hne (selectBlock_eq_some hrow).2.2 hfb hfi hc⟩

/-! ## When `addBlock` succeeds -/

/-- One pass of the loop succeeds on a transfer that passes against the ledger of `h`, when
every `block_txs` row of `h` is an included one. -/
theorem addBlockTx_ok {C : Crypto} {h : Hash} {s : SignedTx} (fee : Int64) (hh : h ≠ emptyHash)
    (hs : (S.ledgerAt h).TxOk C s)
    (hbt : ∀ l ∈ S.blockTxs, l.blockHash = h → l.txHash ∈ S.includedAt h) :
    ∃ S', addBlockTx C h (S, fee) s = .ok (S', fee + s.fee) := by
  have hsel : S.selectIncluded h s.hash = false :=
    Bool.eq_false_iff.2 fun he => hs.fresh ((selectIncluded_iff hh hs.hash_ne).1 he)
  have hv := (validTx_eq_ok hh).2 ⟨hs.valid, hs.inRange, hs.covers, hsel⟩
  obtain ⟨S1, h1⟩ := credit_ok (S := S.debit h (Bytes.data s.source) s.toTx.requiredBalance.val)
    hh (Bytes.data s.destination) s.amount.val
  obtain ⟨-, hi1, hb1, -⟩ := ledgerAt_credit h1
  have hni : (⟨h, s.hash⟩ : Link) ∉ (S1.addTx s).includedTxs := by
    rw [addTx_includedTxs, hi1, debit_includedTxs]
    exact fun hm => hs.fresh (List.mem_map.2 ⟨_, List.mem_filter.2 ⟨hm, by simp⟩, rfl⟩)
  have h2 := insertIncluded_eq_ok.2 ⟨hh, hs.hash_ne, hni, rfl⟩
  have hnb : (⟨h, s.hash⟩ : Link) ∉ S1.blockTxs := by
    rw [hb1, debit_blockTxs]
    exact fun hm => hs.fresh (hbt _ hm rfl)
  exact ⟨_, by
    simp only [addBlockTx, hv, h1, Except.ok_bind]
    rw [h2, Except.ok_bind,
      (insertBlockTx_eq_ok (l := ⟨h, s.hash⟩)).2 ⟨hh, hs.hash_ne, by simpa using hnb, rfl⟩]
    rfl⟩

/-- The loop succeeds on transfers that pass one after another. -/
theorem foldlM_addBlockTx_ok {C : Crypto} {h : Hash} (hh : h ≠ emptyHash) :
    ∀ (txs : List SignedTx) (S : Store) (fee : Int64), (S.ledgerAt h).TxsOk C txs →
      (∀ l ∈ S.blockTxs, l.blockHash = h → l.txHash ∈ S.includedAt h) →
        ∃ S', txs.foldlM (addBlockTx C h) (S, fee) = .ok (S', txs.foldl (fun f s => f + s.fee) fee)
  | [], S, fee, _, _ => ⟨S, rfl⟩
  | s :: txs, S, fee, ⟨hs, hrest⟩, hbt => by
      obtain ⟨S1, h1⟩ := addBlockTx_ok fee hh hs hbt
      obtain ⟨-, hA⟩ := addBlockTx_eq_ok hh h1
      have hbt1 : ∀ l ∈ S1.blockTxs, l.blockHash = h → l.txHash ∈ S1.includedAt h := by
        intro l hl he
        rw [includedAt_append hA.includedTxs_eq]
        rw [hA.blockTxs_eq] at hl
        rcases List.mem_append.1 hl with hl | hl
        · exact List.mem_append_left _ (hbt l hl he)
        · obtain ⟨s', hs', rfl⟩ := List.mem_map.1 hl
          exact List.mem_append_right _ (by simp_all)
      obtain ⟨S', h2⟩ := foldlM_addBlockTx_ok hh txs S1 (fee + s.fee)
        (by rw [hA.ledgerAt_eq]; exact hrest) hbt1
      exact ⟨S', by rw [List.foldlM_cons, h1, Except.ok_bind, h2]; rfl⟩

/-- `applyBlock` succeeds on a block valid on its parent whose transfers pass on the parent's
ledger, when the block owns no row yet. -/
theorem applyBlock_ok {C : Crypto} {b previous : Block} (hK : S.BalancesKeyed)
    (hn : S.includedTxs.Nodup) (hne : ∀ l ∈ S.includedTxs, l.txHash ≠ emptyHash)
    (hh : b.hash ≠ emptyHash) (hp : b.previousHash ≠ emptyHash)
    (hfb : S.balancesAt b.hash = []) (hfi : (S.includedTxs.filter fun l => l.blockHash == b.hash) = [])
    (hft : ∀ l ∈ S.blockTxs, l.blockHash ≠ b.hash)
    (hv : b.ValidOn C previous) (ht : (S.ledgerAt b.previousHash).TxsOk C b.txs) :
    ∃ S', applyBlock C b previous S = .ok S' := by
  have h1 := copyBalances_ok hK hh hp hfb
  have h2 := copyIncluded_ok (p := b.previousHash) (S := { S with
    balances := S.balances ++ S.copiedBalances b.hash b.previousHash }) hn hh hne hfi
  have hL := ledgerAt_copy hp hfb (by rw [includedAt, hfi]; rfl) h1 h2
  have ht2 := hL ▸ ht
  obtain ⟨S3, h3⟩ := foldlM_addBlockTx_ok hh b.txs _ b.rewardOutput.amount ht2
    (fun l hl he => absurd he (hft l hl))
  simp only [applyBlock, h1, h2, Block.valid_eq_ok.2 hv, h3, Except.ok_bind]
  split
  · obtain ⟨S4, h4⟩ := credit_ok (S := S3) hh (Bytes.data b.rewardOutput.destination)
      (List.foldl (fun f s => f + s.fee) b.rewardOutput.amount b.txs).val
    exact ⟨_, by rw [h4]; rfl⟩
  · exact ⟨_, rfl⟩

/-- `addBlock` succeeds on a new block valid on its stored parent whose transfers pass on the
parent's ledger. -/
theorem addBlock_ok {C : Crypto} {b previous : Block} {row : BlockRow} (hW : S.WellFormed)
    (hrow : S.selectBlock b.previousHash = some row) (hdec : decodeBlock C row.block = .ok previous)
    (hh : b.hash ≠ emptyHash) (hnot : b.hash ∉ S.hashes) (hv : b.ValidOn C previous)
    (ht : (S.ledgerAt b.previousHash).TxsOk C b.txs) : ∃ S', addBlock C b S = .ok S' := by
  obtain ⟨hfb, hfi, -, hft⟩ := hW.fresh hnot
  have hins := (insertBlock_eq_ok (S := S) (r := b.row)).2 ⟨hh, hnot, rfl⟩
  obtain ⟨S', h⟩ := applyBlock_ok (S := { S with blocks := S.blocks ++ [b.row] }) hW.keyed
    hW.included_nodup hW.included_ne hh (selectBlock_eq_some hrow).2.2 hfb hfi hft hv ht
  exact ⟨S', by simp only [addBlock, hrow, hdec, hins, h]⟩

/-- `addBlock` keeps the tables well formed. -/
theorem WellFormed.addBlock {C : Crypto} {b : Block} (hW : S.WellFormed)
    (hc : Cryptopuff.addBlock C b S = .ok S') : S'.WellFormed := by
  rcases addBlock_eq_ok hW hc with ⟨-, rfl⟩ | ⟨row, previous, -, -, hne, hnot, hA⟩
  · exact hW
  have hbl : S'.blocks = S.blocks ++ [b.row] := hA.touches.blocks_eq
  have hhs : S'.hashes = S.hashes ++ [b.hash] := by simp [hashes, hbl]
  have hold : ∀ {x}, x ∈ S.hashes → x ∈ S'.hashes := fun hx => by
    rw [hhs]; exact List.mem_append_left _ hx
  have hnew : b.hash ∈ S'.hashes := by rw [hhs]; simp
  have hinc : ∀ l ∈ S'.includedTxs, l ∈ S.includedTxs ∨
      (l.blockHash = b.hash ∧ ((∃ l' ∈ S.includedTxs, l.txHash = l'.txHash) ∨
        ∃ s ∈ b.txs, l.txHash = s.hash)) := by
    intro l hl
    rw [hA.includedTxs_eq] at hl
    simp only [copiedIncluded, List.mem_append, List.mem_map, List.mem_filter] at hl
    rcases hl with (hl | ⟨l', ⟨hl', -⟩, rfl⟩) | ⟨s, hs, rfl⟩
    · exact .inl hl
    · exact .inr ⟨rfl, .inl ⟨l', hl', rfl⟩⟩
    · exact .inr ⟨rfl, .inr ⟨s, hs, rfl⟩⟩
  refine ⟨?_, fun r hr => ?_, hA.touches.keyed hW.keyed, fun r hr => ?_,
    hA.includedTxs_nodup hW.included_nodup, fun l hl => ?_, fun l hl => ?_,
    hA.blockTxs_nodup hW.blockTxs_nodup, fun l hl => ?_, ?_, fun r hr => ?_⟩
  · rw [hhs]
    exact List.nodup_append.2 ⟨hW.hashes_nodup, List.nodup_singleton _,
      List.disjoint_singleton.2 hnot⟩
  · rw [hbl] at hr
    rcases List.mem_append.1 hr with hr | hr
    · exact hW.hash_ne r hr
    · rw [List.mem_singleton.1 hr]; exact hne
  · rcases hA.touches.balance_rows r hr with he | hm
    · exact he ▸ hnew
    · obtain ⟨r', hr', he⟩ := List.mem_map.1 hm
      exact he ▸ hold (hW.balances_stored r' hr')
  · rcases hinc l hl with hl | ⟨he, -⟩
    · exact hold (hW.included_stored l hl)
    · exact he ▸ hnew
  · rcases hinc l hl with hl | ⟨-, ⟨l', hl', he⟩ | ⟨s, hs, he⟩⟩
    · exact hW.included_ne l hl
    · exact he ▸ hW.included_ne l' hl'
    · exact he ▸ hA.txsOk.hash_ne s hs
  · rw [hA.blockTxs_eq] at hl
    rcases List.mem_append.1 hl with hl | hl
    · exact hold (hW.blockTxs_stored l hl)
    · obtain ⟨s, -, rfl⟩ := List.mem_map.1 hl
      exact hnew
  · rw [hA.txs_eq]
    exact foldl_addTx_txs_nodup _ hW.txs_nodup
  · rw [hA.txs_eq] at hr
    rcases mem_foldl_addTx_txs hr with hr | ⟨s, -, rfl, hs⟩
    · exact hW.txs_ne r hr
    · exact hs

end Store

end Cryptopuff
