import Cryptopuff.StoredBlocks

/-!
# What the tables keep over every run

Three facts about every store a node reaches, each proved from one lemma per operation and an
induction over the run.

`migrate` declares `included_txs (tx_hash)` and `block_txs (tx_hash)` foreign keys on
`txs (hash)`, and the statements of `Cryptopuff.Store.State` do not check them. They never
need to: `addBlock` runs `addTx` before it links a transaction, copies only links whose rows
exist, and the `DELETE` of `PendingTxs` spares every transaction a link names
(`Reachable.linked`).

`addBlock` ends with `DELETE FROM balances WHERE balance = 0`, over the whole table, and
`validTx` keeps every balance of a chain nonnegative: every row of `balances` is positive, so
a stored block's rows are exactly its addresses with coins (`balances_positive`).

Rows of `blocks` are only ever appended, so the height of the best block never goes down, and
the best block changes only to a block stored later (`best_height_monotone`).
-/

namespace Cryptopuff

namespace Store

variable {C : Crypto} {S S' : Store}

/-! ## The links name stored transactions -/

/-- The foreign keys of `included_txs` and `block_txs` on `txs (hash)`: every link names a
stored transaction. -/
structure Linked (S : Store) : Prop where
  included : ∀ l ∈ S.includedTxs, l.txHash ∈ S.txs.map (·.hash)
  blockTxs : ∀ l ∈ S.blockTxs, l.txHash ∈ S.txs.map (·.hash)

/-- `INSERT OR IGNORE INTO txs` keeps every row. -/
theorem txs_prefix_foldl_addTx (txs : List SignedTx) : S.txs <+: (txs.foldl addTx S).txs := by
  induction txs generalizing S with
  | nil => exact List.prefix_refl _
  | cons s txs ih =>
      refine List.IsPrefix.trans ?_ ih
      rw [addTx_txs]
      split_ifs
      · exact List.prefix_refl _
      · exact List.prefix_append _ _

/-- After `addTx`, a transaction whose hash is not `NULL` has a row. -/
theorem hash_mem_foldl_addTx {txs : List SignedTx} {s : SignedTx} (hs : s ∈ txs)
    (hne : s.hash ≠ emptyHash) : s.hash ∈ (txs.foldl addTx S).txs.map (·.hash) := by
  induction txs generalizing S with
  | nil => cases hs
  | cons s' txs ih =>
      rcases List.mem_cons.1 hs with rfl | hs
      · have h : s.hash ∈ (S.addTx s).txs.map (·.hash) := by
          rw [addTx_txs]
          split_ifs with h
          · exact h.resolve_left hne
          · simp [SignedTx.row]
        exact ((txs_prefix_foldl_addTx txs).map _).subset h
      · exact ih hs

theorem Linked.addBlock {b : Block} (hW : S.WellFormed) (hL : S.Linked)
    (hc : Cryptopuff.addBlock C b S = .ok S') : S'.Linked := by
  rcases addBlock_eq_ok hW hc with ⟨-, rfl⟩ | ⟨row, previous, -, -, -, -, hA⟩
  · exact hL
  have hold : ∀ {t}, t ∈ S.txs.map (·.hash) → t ∈ S'.txs.map (·.hash) := fun ht => by
    rw [hA.txs_eq]
    exact ((txs_prefix_foldl_addTx (S := { S with blocks := S.blocks ++ [b.row] }) b.txs).map
      _).subset ht
  have hnew : ∀ s ∈ b.txs, s.hash ∈ S'.txs.map (·.hash) := fun s hs => by
    have hne := (hW.addBlock hc).included_ne ⟨b.hash, s.hash⟩ (by
      rw [hA.includedTxs_eq]; exact List.mem_append_right _ (List.mem_map_of_mem _ hs))
    rw [hA.txs_eq]
    exact hash_mem_foldl_addTx hs hne
  constructor
  · intro l hl
    rw [hA.includedTxs_eq] at hl
    simp only [copiedIncluded, List.mem_append, List.mem_map, List.mem_filter] at hl
    rcases hl with (hl | ⟨l', ⟨hl', -⟩, rfl⟩) | ⟨s, hs, rfl⟩
    · exact hold (hL.included l hl)
    · exact hold (hL.included l' hl')
    · exact hnew s hs
  · intro l hl
    rw [hA.blockTxs_eq] at hl
    rcases List.mem_append.1 hl with hl | hl
    · exact hold (hL.blockTxs l hl)
    · obtain ⟨s, hs, rfl⟩ := List.mem_map.1 hl
      exact hnew s hs

theorem Linked.foldlM_addBlock :
    ∀ (bs : List Block) {S S' : Store}, S.WellFormed → S.Linked →
      bs.foldlM (fun S b => Cryptopuff.addBlock C b S) S = .ok S' → S'.Linked
  | [], _, _, _, hL, hc => by cases Except.ok.inj hc; exact hL
  | b :: bs, _, _, hW, hL, hc => by
      rw [List.foldlM_cons, Except.bind_eq_ok] at hc
      obtain ⟨S1, h1, h2⟩ := hc
      exact Linked.foldlM_addBlock bs (hW.addBlock h1) (hL.addBlock hW h1) h2

/-- The `DELETE` of `PendingTxs` removes a transaction only when no link names it. -/
theorem Linked.deleteTx (hL : S.Linked) (h : Hash) : (S.deleteTx h).Linked := by
  unfold Store.deleteTx
  split
  · exact hL
  · next hn =>
      simp only [Bool.or_eq_true, List.any_eq_true, not_or, not_exists, not_and] at hn
      have keep : ∀ l : Link, (Hash.sqlEq l.txHash h = true → False) →
          l.txHash ∈ S.txs.map (·.hash) →
          l.txHash ∈ (S.txs.filter fun r => !Hash.sqlEq r.hash h).map (·.hash) := by
        intro l hl ht
        obtain ⟨r, hr, he⟩ := List.mem_map.1 ht
        exact List.mem_map.2 ⟨r, List.mem_filter.2 ⟨hr, by rw [he]; simpa using hl⟩, he⟩
      exact ⟨fun l hl => keep l (hn.2 l hl) (hL.included l hl),
        fun l hl => keep l (hn.1 l hl) (hL.blockTxs l hl)⟩

theorem Linked.pendingLoop (limit : Int) :
    ∀ (rows : List TxRow) {acc acc'}, Cryptopuff.pendingLoop C limit rows acc = .ok acc' →
      acc.1.Linked → acc'.1.Linked
  | [], _, _, hc, hL => by cases Except.ok.inj hc; exact hL
  | r :: rows, (S, temp, picked), acc', hc, hL => by
      obtain ⟨stx, -, ⟨-, -, -, hc⟩ | ⟨-, -, hc⟩⟩ := pendingLoop_cons_ok hc
      · exact Linked.pendingLoop limit rows hc (hL.deleteTx _)
      · exact Linked.pendingLoop limit rows hc hL

theorem Linked.addTx (hL : S.Linked) (s : SignedTx) : (S.addTx s).Linked := by
  have hsub : ∀ {t}, t ∈ S.txs.map (·.hash) → t ∈ (S.addTx s).txs.map (·.hash) :=
    fun ht => ((txs_prefix_foldl_addTx [s]).map _).subset ht
  exact ⟨fun l hl => hsub (hL.included l (by simpa using hl)),
    fun l hl => hsub (hL.blockTxs l (by simpa using hl))⟩

/-- A committed transaction keeps the links to stored transactions. -/
theorem Linked.step (hI : S.Inv C) (hL : S.Linked) (hs : Step C S S') : S'.Linked := by
  obtain ⟨op, hc⟩ := hs
  cases op with
  | addBlock b => exact hL.addBlock hI.wf hc
  | addBlocks bs =>
      simp only [Op.run, DB.addBlocks] at hc
      split at hc
      · exact Linked.foldlM_addBlock _ hI.wf hL hc
      · cases Except.ok.inj hc; exact hL
  | addTx s =>
      obtain ⟨-, -, -, rfl⟩ := DB.addTx_eq_ok hc
      exact hL.addTx _
  | pendingTxs tip limit =>
      simp only [Op.run, DB.pendingTxs, Except.map, Except.bind_eq_ok] at hc
      split at hc
      · cases hc
      · next res hres =>
          cases hc
          simp only [Except.bind_eq_ok] at hres
          obtain ⟨temp, -, acc, hl, hret⟩ := hres
          cases hret
          exact Linked.pendingLoop limit _ hl hL
  | addPeer p =>
      cases Except.ok.inj hc
      unfold insertPeer
      split <;> exact ⟨hL.included, hL.blockTxs⟩
  | removePeer p =>
      cases Except.ok.inj hc
      exact ⟨hL.included, hL.blockTxs⟩

/-! ## Every balance row is positive -/

/-- `applyBlock` ends with `DELETE FROM balances WHERE balance = 0`, over the whole table. -/
theorem applyBlock_balances_ne_zero {b previous : Block}
    (hc : applyBlock C b previous S = .ok S') : ∀ r ∈ S'.balances, r.balance ≠ 0 := by
  simp only [applyBlock, Except.bind_eq_ok] at hc
  obtain ⟨S1, -, S2, -, -, -, acc, -, hrest⟩ := hc
  obtain ⟨S4, rfl⟩ : ∃ S4 : Store, S' = S4.deleteZeroBalances := by
    split at hrest <;>
    · simp only [Except.bind_eq_ok] at hrest
      obtain ⟨S4, -, h⟩ := hrest
      exact ⟨S4, (Except.ok.inj h).symm⟩
  intro r hr
  simpa using (List.mem_filter.1 hr).2

theorem addBlock_balances_ne_zero {b : Block} (h0 : ∀ r ∈ S.balances, r.balance ≠ 0)
    (hc : Cryptopuff.addBlock C b S = .ok S') : ∀ r ∈ S'.balances, r.balance ≠ 0 := by
  unfold Cryptopuff.addBlock at hc
  split at hc
  · cases hc
  · split at hc
    · cases hc
    · split at hc
      · cases Except.ok.inj hc; exact h0
      · cases hc
      · exact applyBlock_balances_ne_zero hc

theorem foldlM_addBlock_balances_ne_zero :
    ∀ (bs : List Block) {S S' : Store}, (∀ r ∈ S.balances, r.balance ≠ 0) →
      bs.foldlM (fun S b => Cryptopuff.addBlock C b S) S = .ok S' →
        ∀ r ∈ S'.balances, r.balance ≠ 0
  | [], _, _, h0, hc => by cases Except.ok.inj hc; exact h0
  | b :: bs, _, _, h0, hc => by
      rw [List.foldlM_cons, Except.bind_eq_ok] at hc
      obtain ⟨S1, h1, h2⟩ := hc
      exact foldlM_addBlock_balances_ne_zero bs (addBlock_balances_ne_zero h0 h1) h2

/-! ## The best block only climbs -/

theorem foldl_bestStep_some : ∀ (l : List BlockRow) (r : BlockRow),
    ∃ r', l.foldl bestStep (some r) = some r'
  | [], r => ⟨r, rfl⟩
  | x :: l, r => by
      rw [List.foldl_cons]
      by_cases h : r.height ≤ x.height
      · simpa [bestStep, h] using foldl_bestStep_some l x
      · simpa [bestStep, h] using foldl_bestStep_some l r

end Store

/-! ## Every step, every run -/

/-- A committed transaction leaves no zero balance row. -/
theorem Step.balances_ne_zero {C : Crypto} {S S' : Store} (hs : Step C S S')
    (h0 : ∀ r ∈ S.balances, r.balance ≠ 0) : ∀ r ∈ S'.balances, r.balance ≠ 0 := by
  obtain ⟨op, hc⟩ := hs
  cases op with
  | addBlock b => exact Store.addBlock_balances_ne_zero h0 hc
  | addBlocks bs =>
      simp only [Op.run, DB.addBlocks] at hc
      split at hc
      · exact Store.foldlM_addBlock_balances_ne_zero _ h0 hc
      · cases Except.ok.inj hc; exact h0
  | addTx s =>
      obtain ⟨-, -, -, rfl⟩ := DB.addTx_eq_ok hc
      simpa using h0
  | pendingTxs tip limit =>
      cases hp : DB.pendingTxs C tip limit S with
      | error e => simp [Op.run, hp, Except.map] at hc
      | ok res =>
          simp only [Op.run, hp, Except.map, Except.ok.injEq] at hc
          obtain ⟨txs, -, he⟩ := DB.pendingTxs_store hp
          rw [← hc, he]
          exact h0
  | addPeer p =>
      cases Except.ok.inj hc
      unfold Store.insertPeer; split <;> exact h0
  | removePeer p =>
      cases Except.ok.inj hc
      exact h0

/-- A committed transaction keeps the best block or replaces it with one at least as high
that it stored. -/
theorem Step.bestRow_le {C : Crypto} {S S' : Store} (hI : S.Inv C) (hs : Step C S S')
    {r : BlockRow} (hr : S.bestRow = some r) :
    ∃ r', S'.bestRow = some r' ∧ r.height ≤ r'.height ∧ (r' = r ∨ r' ∉ S.blocks) := by
  obtain ⟨hI', hE⟩ := hs.inv hI
  obtain ⟨new, hnew⟩ := hE.blocks
  obtain ⟨r', hr'⟩ := Store.foldl_bestStep_some new r
  have hb : S'.bestRow = some r' := by
    rw [Store.bestRow, ← hnew, List.foldl_append, ← hr', ← hr]
    rfl
  refine ⟨r', hb, (Store.foldl_best_max new _ hr').1 r rfl, ?_⟩
  rcases Store.foldl_best_mem new _ hr' with hm | he
  · refine .inr fun hold => ?_
    have hnd := hI'.wf.hashes_nodup
    rw [Store.hashes, ← hnew, List.map_append, List.nodup_append] at hnd
    exact hnd.2.2 (List.mem_map_of_mem _ hold) (List.mem_map_of_mem _ hm)
  · exact .inl (Option.some.inj he).symm

/-- Every reachable store keeps the foreign keys on `txs`. -/
theorem Reachable.linked {C : Crypto} {S : Store} (hS : Reachable C S) : S.Linked := by
  induction hS with
  | refl => exact ⟨fun _ h => (by cases h), fun _ h => (by cases h)⟩
  | tail hr hs ih => exact ih.step (Reachable.inv hr) hs

/-- No reachable store holds a zero balance row. -/
theorem Reachable.balances_ne_zero {C : Crypto} {S : Store} (hS : Reachable C S) :
    ∀ r ∈ S.balances, r.balance ≠ 0 := by
  induction hS with
  | refl => exact fun _ h => (by cases h)
  | tail _ hs ih => exact hs.balances_ne_zero ih

/-- In every reachable store every row of `included_txs` and `block_txs` names a row of
`txs`, so the foreign keys `migrate` declares hold although no statement checks them; and a
`PendingTxs` that commits keeps every transaction a link names. -/
theorem links_name_stored_txs {C : Crypto} {S : Store} (hS : Reachable C S) :
    (∀ l ∈ S.includedTxs ++ S.blockTxs, l.txHash ∈ S.txs.map (·.hash)) ∧
    ∀ tip limit S' L, DB.pendingTxs C tip limit S = .ok (S', L) →
      ∀ l ∈ S.includedTxs ++ S.blockTxs, l.txHash ∈ S'.txs.map (·.hash) := by
  have links : ∀ {S}, Reachable C S →
      ∀ l ∈ S.includedTxs ++ S.blockTxs, l.txHash ∈ S.txs.map (·.hash) := fun hS l hl =>
    (List.mem_append.1 hl).elim (hS.linked.included l) (hS.linked.blockTxs l)
  refine ⟨links hS, fun tip limit S' L hc => ?_⟩
  have hS' : Reachable C S' := hS.tail (.commit (.pendingTxs tip limit) (by rw [Op.run, hc]; rfl))
  obtain ⟨txs, -, rfl⟩ := DB.pendingTxs_store hc
  exact links hS'

open LongChain in
theorem links_name_stored_txs_pendingStore : Reachable C₀ pendingStore ∧
    (∀ l ∈ pendingStore.includedTxs ++ pendingStore.blockTxs,
      l.txHash ∈ pendingStore.txs.map (·.hash)) ∧
    ∀ tip limit S' L, DB.pendingTxs C₀ tip limit pendingStore = .ok (S', L) →
      ∀ l ∈ pendingStore.includedTxs ++ pendingStore.blockTxs, l.txHash ∈ S'.txs.map (·.hash) :=
  ⟨pendingStore_reachable, links_name_stored_txs pendingStore_reachable⟩

/-- In every reachable store every row of `balances` is positive, and an address has a row
at a block exactly when its balance there is positive: the rows of a block are its addresses
with coins, one each. -/
theorem balances_positive {C : Crypto} {S : Store} (hS : Reachable C S) :
    (∀ r ∈ S.balances, 0 < r.balance) ∧
      ∀ h a, 0 < S.balanceAt h a ↔ ∃ r ∈ S.balances, r.blockHash = h ∧ r.address = a := by
  have hI := hS.inv
  have hpos : ∀ r ∈ S.balances, 0 < r.balance := by
    intro r hr
    obtain ⟨row, hrow, hh⟩ := List.mem_map.1 (hI.wf.balances_stored r hr)
    obtain ⟨chain, b, rfl, hsc, hL⟩ := hI.chains row hrow
    have hbal : S.balanceAt b.hash r.address = (Ledger.ofChain (chain ++ [b])).bal r.address :=
      congrFun (congrArg Ledger.bal hL) r.address
    have h0 := hsc.valid.bal_nonneg r.address
    rw [← hbal, show b.hash = r.blockHash from hh, Store.balanceAt_of_mem hI.wf.keyed hr] at h0
    exact lt_of_le_of_ne h0 (Ne.symm (hS.balances_ne_zero r hr))
  refine ⟨hpos, fun h a => ⟨fun hp => ?_, ?_⟩⟩
  · unfold Store.balanceAt at hp
    split at hp
    · next r hf =>
        obtain ⟨hr, hh, ha⟩ := Store.find?_balancesAt hf
        exact ⟨r, hr, hh, ha⟩
    · exact absurd hp (lt_irrefl 0)
  · rintro ⟨r, hr, rfl, rfl⟩
    rw [Store.balanceAt_of_mem hI.wf.keyed hr]
    exact hpos r hr

open LongChain in
theorem balances_positive_pendingStore : Reachable C₀ pendingStore ∧
    (∀ r ∈ pendingStore.balances, 0 < r.balance) ∧
      ∀ h a, 0 < pendingStore.balanceAt h a ↔
        ∃ r ∈ pendingStore.balances, r.blockHash = h ∧ r.address = a :=
  ⟨pendingStore_reachable, balances_positive pendingStore_reachable⟩

/-- Over every run from a reachable store, the best block's height never goes down, and the
best block is either the one the run started from or a block stored during the run. -/
theorem best_height_monotone {C : Crypto} {S S' : Store} (hS : Reachable C S)
    (hrun : Relation.ReflTransGen (Step C) S S') {r : BlockRow} (hr : S.bestRow = some r) :
    ∃ r', S'.bestRow = some r' ∧ r.height ≤ r'.height ∧ (r' = r ∨ r' ∉ S.blocks) := by
  induction hrun with
  | refl => exact ⟨r, hr, le_rfl, .inl rfl⟩
  | tail hrun' hs ih =>
      obtain ⟨r₁, h₁, hle₁, hor₁⟩ := ih
      obtain ⟨r₂, h₂, hle₂, hor₂⟩ := hs.bestRow_le (Reachable.inv (hS.trans hrun')) h₁
      refine ⟨r₂, h₂, hle₁.trans hle₂, ?_⟩
      rcases hor₂ with rfl | hnew
      · exact hor₁
      · exact .inr fun hold => hnew ((Reachable.run_extends hS hrun').blocks.subset hold)

open LongChain in
/-- From `rewardStore` to `pendingStore` the best block moves up from `rewardBlock 1` to
`spendBlock`. -/
theorem best_height_monotone_rewardStore : Reachable C₀ rewardStore ∧
    Relation.ReflTransGen (Step C₀) rewardStore pendingStore ∧
    rewardStore.bestRow = some (rewardBlock 1).row ∧
    ∃ r', pendingStore.bestRow = some r' ∧ (rewardBlock 1).row.height ≤ r'.height ∧
      (r' = (rewardBlock 1).row ∨ r' ∉ rewardStore.blocks) :=
  have hrun : Relation.ReflTransGen (Step C₀) rewardStore pendingStore :=
    (Relation.ReflTransGen.single (.commit _ spendStore_spec.1)).tail (.commit _ pendingStore_spec.1)
  ⟨rewardStore_reachable, hrun, rewardStore_bestRow,
    best_height_monotone rewardStore_reachable hrun rewardStore_bestRow⟩

end Cryptopuff
