import Cryptopuff.Store.Integrity
import Cryptopuff.Mining

/-!
# Delivering the same thing twice

A node hears the same things again and again. `periodicFullPeerSync` fetches every stored
peer's blocks and pending transactions each minute, peers announce each block, transaction and
peer to each other, and each `mine()` loop calls `PendingTxs` on the same tip until the tip
changes. This file shows that a repeat does no harm: every operation, committed again on the
store it left, commits again and changes nothing (`op_idempotent`), and a second `PendingTxs`
returns the same transactions (`pendingTxs_idempotent`).

The hard case is `PendingTxs`. Its loop deletes the invalid transactions it meets, except those
a block names, and a pass that succeeds picks fewer than `limit`. A second pass meets the same
rows minus the deleted ones, with `temp_balances` as before at each row, so it decides every row
as the first pass did (`pendingLoop_again`).
-/

namespace Cryptopuff

/-- Filtering a list without duplicates by membership in one of its sublists gives the
sublist. -/
theorem filter_mem_of_sublist {α : Type} [DecidableEq α] :
    ∀ {l₁ l₂ : List α}, List.Sublist l₁ l₂ → l₂.Nodup → l₂.filter (fun x => decide (x ∈ l₁)) = l₁
  | _, _, .slnil, _ => rfl
  | l₁, a :: l₂, .cons _ h, hn => by
      have ha : a ∉ l₁ := fun hm => (List.nodup_cons.1 hn).1 (h.subset hm)
      rw [List.filter_cons_of_neg (by simpa using ha)]
      exact filter_mem_of_sublist h (List.nodup_cons.1 hn).2
  | a :: l₁, .(a) :: l₂, .cons₂ _ h, hn => by
      have ha : a ∉ l₂ := (List.nodup_cons.1 hn).1
      rw [List.filter_cons_of_pos (by simp), List.filter_congr fun x hx => ?_,
        filter_mem_of_sublist h (List.nodup_cons.1 hn).2]
      simp [List.mem_cons, ne_of_mem_of_not_mem hx ha]

namespace Store

variable {C : Crypto} {S S' : Store}

/-- A stored transaction reads back as the hashed transaction it holds. -/
theorem Inv.decode_txRow (hI : S.Inv C) {t : TxRow} (ht : t ∈ S.txs) :
    ∃ s, s.updateHash C = s ∧ s.row = t ∧ decodeSignedTx C t.tx = .ok s := by
  obtain ⟨s, hs, rfl⟩ := hI.txs_hashed t ht
  exact ⟨s, hs, rfl, decodeSignedTx_row hs⟩

/-! ## The `DELETE` of `PendingTxs` -/

theorem mem_deleteTx_of_ne {h : Hash} {r : TxRow} (hr : r ∈ S.txs) (hne : r.hash ≠ h) :
    r ∈ (S.deleteTx h).txs := by
  unfold deleteTx
  split
  · exact hr
  · exact List.mem_filter.2 ⟨hr, by simp [Hash.sqlEq, hne]⟩

/-- A row the `DELETE` of its own hash spares is named by a link, so the `DELETE` changes no
store with the same links. -/
theorem deleteTx_eq_self_of_mem {h : Hash} {r : TxRow} (hr : r ∈ (S.deleteTx h).txs)
    (hh : r.hash = h) (hne : h ≠ emptyHash) {T : Store} (hbt : T.blockTxs = S.blockTxs)
    (hi : T.includedTxs = S.includedTxs) : T.deleteTx h = T := by
  unfold deleteTx at hr ⊢
  split at hr
  · next hl => rw [hbt, hi, if_pos hl]
  · simp [Hash.sqlEq, hh, hne] at hr

/-! ## A second pass of the loop -/

/-- What the loop of `PendingTxs` reads of a row of a reachable store: the row decodes to a
transaction with the row's hash, which is not `NULL`. -/
def RowDecodes (C : Crypto) (r : TxRow) : Prop :=
  r.hash ≠ emptyHash ∧ ∃ s : SignedTx, decodeSignedTx C r.tx = .ok s ∧ s.hash = r.hash

/-- The loop deletes only rows whose hash is one of the rows it meets. -/
theorem pendingLoop_mem_txs (limit : Int) :
    ∀ (rows : List TxRow) {S S₁ : Store} {temp temp₁ : List TempRow}
      {picked picked₁ : List SignedTx}, (∀ r ∈ rows, RowDecodes C r) →
      pendingLoop C limit rows (S, temp, picked) = .ok (S₁, temp₁, picked₁) →
      ∀ r ∈ S.txs, r.hash ∉ rows.map (·.hash) → r ∈ S₁.txs
  | [], _, _, _, _, _, _, _, hc, r, hr, _ => by cases Except.ok.inj hc; exact hr
  | x :: rows, S, _, temp, _, picked, _, hd, hc, r, hr, hn => by
      obtain ⟨-, s, hs, hsh⟩ := hd x (List.mem_cons_self _ _)
      have hd' := fun r hr => hd r (List.mem_cons_of_mem _ hr)
      have hn' : r.hash ∉ rows.map (·.hash) := fun h => hn (List.mem_cons_of_mem _ h)
      have hne : r.hash ≠ s.hash := fun h => hn (h ▸ hsh ▸ List.mem_cons_self _ _)
      obtain ⟨stx, hdx, ⟨-, -, -, hc⟩ | ⟨-, -, hc⟩⟩ := pendingLoop_cons_ok hc <;>
        obtain rfl : s = stx := Except.ok.inj (hs.symm.trans hdx)
      · exact pendingLoop_mem_txs limit rows hd' hc r (mem_deleteTx_of_ne hr hne) hn'
      · exact pendingLoop_mem_txs limit rows hd' hc r hr hn'

/-- A second pass of the loop over the rows the first pass left, from the store it left,
decides every row as the first did: it deletes nothing more and picks the same transactions. -/
theorem pendingLoop_again (limit : Int) :
    ∀ (rows : List TxRow) {S S₁ : Store} {temp temp₁ : List TempRow}
      {picked picked₁ : List SignedTx}, (rows.map (·.hash)).Nodup →
      (∀ r ∈ rows, r ∈ S.txs ∧ RowDecodes C r) →
      pendingLoop C limit rows (S, temp, picked) = .ok (S₁, temp₁, picked₁) →
      pendingLoop C limit (rows.filter fun r => decide (r ∈ S₁.txs)) (S₁, temp, picked) =
        .ok (S₁, temp₁, picked₁)
  | [], _, _, _, _, _, _, _, _, hc => by cases Except.ok.inj hc; rfl
  | x :: rows, S, S₁, temp, temp₁, picked, picked₁, hnd, hrows, hc => by
      obtain ⟨hx, hxne, s, hs, hsh⟩ := hrows x (List.mem_cons_self _ _)
      have hxn : x.hash ∉ rows.map (·.hash) := (List.nodup_cons.1 hnd).1
      have hnd' := (List.nodup_cons.1 hnd).2
      have hdec : ∀ r ∈ rows, RowDecodes C r := fun r hr =>
        (hrows r (List.mem_cons_of_mem _ hr)).2
      obtain ⟨txs₁, -, hS₁⟩ := pendingLoop_store (C := C) limit (x :: rows) hc
      dsimp only at hS₁
      obtain ⟨stx, hdx, ⟨m, c, hv, hc⟩ | ⟨hv, hlim, hc⟩⟩ := pendingLoop_cons_ok hc <;>
        obtain rfl : s = stx := Except.ok.inj (hs.symm.trans hdx)
      · -- the first pass met an invalid transaction and ran its `DELETE`
        have hrows' : ∀ r ∈ rows, r ∈ (S.deleteTx s.hash).txs ∧ RowDecodes C r := fun r hr =>
          ⟨mem_deleteTx_of_ne (hrows r (List.mem_cons_of_mem _ hr)).1 fun h =>
            hxn (hsh ▸ h ▸ List.mem_map_of_mem _ hr), hdec r hr⟩
        have ih := pendingLoop_again limit rows hnd' hrows' hc
        by_cases hkeep : x ∈ S₁.txs
        · have hx' : x ∈ (S.deleteTx s.hash).txs := by
            obtain ⟨txs', hsub, he⟩ := pendingLoop_store (C := C) limit rows hc
            dsimp only at he
            rw [he] at hkeep
            exact hsub.subset hkeep
          have hid : S₁.deleteTx s.hash = S₁ :=
            deleteTx_eq_self_of_mem hx' hsh.symm (hsh ▸ hxne) (by rw [hS₁]) (by rw [hS₁])
          rw [List.filter_cons_of_pos (by simpa using hkeep), pendingLoop_cons_skip hs hv, hid]
          exact ih
        · rw [List.filter_cons_of_neg (by simpa using hkeep)]
          exact ih
      · have hkeep : x ∈ S₁.txs := pendingLoop_mem_txs limit rows hdec hc x hx hxn
        rw [List.filter_cons_of_pos (by simpa using hkeep), pendingLoop_cons_pick hs hv hlim]
        exact pendingLoop_again limit rows hnd' (fun r hr => hrows r (List.mem_cons_of_mem _ hr)) hc

/-- `PendingTxs` on the store a `PendingTxs` left, with the same tip and limit, deletes
nothing and returns the same transactions. -/
theorem DB.pendingTxs_again (hI : S.Inv C) {tip : Hash} {limit : Int}
    {L : Option (List SignedTx)} (hc : DB.pendingTxs C tip limit S = .ok (S', L)) :
    DB.pendingTxs C tip limit S' = .ok (S', L) := by
  obtain ⟨txs, hsub, hS'⟩ := DB.pendingTxs_store hc
  simp only [DB.pendingTxs, Except.bind_eq_ok] at hc
  obtain ⟨temp, htemp, ⟨S₁, temp₁, picked₁⟩, hl, hret⟩ := hc
  simp only [pure, Except.pure, Except.ok.injEq, Prod.mk.injEq] at hret
  obtain ⟨rfl, rfl⟩ := hret
  have hnd : S.txs.Nodup := hI.wf.txs_nodup.of_map _
  have hrows : S₁.pendingRows tip = (S.pendingRows tip).filter fun r => decide (r ∈ S₁.txs) := by
    rw [hS']
    simp only [pendingRows, selectIncluded]
    conv_lhs => rw [← filter_mem_of_sublist hsub hnd]
    rw [List.filter_filter, List.filter_filter]
    exact List.filter_congr fun r _ => Bool.and_comm _ _
  have hagain := pendingLoop_again limit (S.pendingRows tip)
    ((hI.wf.txs_nodup).sublist ((List.filter_sublist _).map _))
    (fun r hr => by
      have hr' := (List.mem_filter.1 hr).1
      obtain ⟨s, -, rfl, hdec⟩ := hI.decode_txRow hr'
      exact ⟨hr', hI.wf.txs_ne _ hr', s, hdec, rfl⟩)
    hl
  have htemp' : copyTemp S₁ tip = .ok temp := by rw [hS']; exact htemp
  simp only [DB.pendingTxs, htemp', hrows, Except.ok_bind, hagain]
  rfl

/-! ## The other operations -/

/-- A hash of a stored block that is not `NULL` is found by `SELECT ... WHERE hash = ?`. -/
theorem selectBlock_isSome {h : Hash} (hh : h ∈ S.hashes) (hne : h ≠ emptyHash) :
    (S.selectBlock h).isSome := by
  obtain ⟨r, hr, rfl⟩ := List.mem_map.1 hh
  exact List.find?_isSome.2 ⟨r, hr, Hash.sqlEq_iff.2 ⟨rfl, hne⟩⟩

/-- A committed `addBlock` leaves the block's hash stored, and not `NULL`. -/
theorem addBlock_stores {b : Block} (hW : S.WellFormed) (hc : addBlock C b S = .ok S') :
    b.hash ∈ S'.hashes ∧ b.hash ≠ emptyHash := by
  rcases addBlock_eq_ok hW hc with ⟨hm, rfl⟩ | ⟨row, previous, -, -, hne, -, hA⟩
  · obtain ⟨r, hr, he⟩ := List.mem_map.1 hm
    exact ⟨hm, he ▸ hW.hash_ne r hr⟩
  · rw [hashes, hA.touches.blocks_eq]
    exact ⟨by simp, hne⟩

theorem addBlock_again {b : Block} (hW : S.WellFormed) (hc : addBlock C b S = .ok S') :
    addBlock C b S' = .ok S' := by
  rcases addBlock_eq_ok hW hc with ⟨-, rfl⟩ | ⟨row, previous, hsel, hdec, hne, -, hA⟩
  · exact hc
  have hbl : S'.blocks = S.blocks ++ [b.row] := hA.touches.blocks_eq
  have hsel' : S'.selectBlock b.previousHash = some row := by
    rw [selectBlock] at hsel ⊢
    rw [hbl, List.find?_append, hsel]
    rfl
  have hins : S'.insertBlock b.row =
      .error (.constraint true "UNIQUE constraint failed: blocks.hash") := by
    rw [insertBlock, Block.row_hash, if_neg hne,
      if_pos (List.any_eq_true.2 ⟨b.row, by simp [hbl], by simp⟩)]
  simp only [addBlock, hsel', hdec, hins]

theorem WellFormed.foldlM_addBlock :
    ∀ (bs : List Block) {S S' : Store}, S.WellFormed →
      bs.foldlM (fun S b => Cryptopuff.addBlock C b S) S = .ok S' → S'.WellFormed
  | [], _, _, hW, hc => by cases Except.ok.inj hc; exact hW
  | b :: bs, _, _, hW, hc => by
      rw [List.foldlM_cons, Except.bind_eq_ok] at hc
      obtain ⟨S1, h1, h2⟩ := hc
      exact WellFormed.foldlM_addBlock bs (hW.addBlock h1) h2

/-- Once `AddBlocks` committed, the first block of the list is stored, so a second
`AddBlocks` of the list ignores it. -/
theorem DB.addBlocks_again {L : List Block} (hW : S.WellFormed)
    (hc : DB.addBlocks C L S = .ok S') : DB.addBlocks C L S' = .ok S' := by
  match hd : divergedAt S L with
  | none | some 0 =>
      simp only [DB.addBlocks, hd, Except.ok.injEq] at hc
      subst hc
      simp only [DB.addBlocks, hd]
  | some (d + 1) =>
      obtain ⟨x, rest, rfl⟩ : ∃ x rest, L = x :: rest := by
        cases L with
        | nil => simp [divergedAt] at hd
        | cons x rest => exact ⟨x, rest, rfl⟩
      simp only [DB.addBlocks, hd, List.take_succ_cons, List.reverse_cons, List.foldlM_append,
        Except.bind_eq_ok, List.foldlM_cons, List.foldlM_nil] at hc
      obtain ⟨T, hT, S₂, hx, hret⟩ := hc
      cases Except.ok.inj hret
      obtain ⟨hm, hne⟩ := addBlock_stores (WellFormed.foldlM_addBlock _ hW hT) hx
      have h0 : divergedAt S' (x :: rest) = some 0 := by
        simp [divergedAt, List.findIdx?_cons, selectBlock_isSome hm hne]
      simp only [DB.addBlocks, h0]

/-- `INSERT OR IGNORE` of a transaction already inserted inserts nothing. -/
theorem addTx_addTx (s : SignedTx) : (S.addTx s).addTx s = S.addTx s := by
  rw [addTx_eq (S := S.addTx s), if_pos]
  by_cases hne : s.hash = emptyHash
  · exact .inl hne
  · exact .inr (hash_mem_foldl_addTx (S := S) (List.mem_singleton_self s) hne)

theorem DB.addTx_again {s : SignedTx} (hc : DB.addTx C s S = .ok S') :
    DB.addTx C s S' = .ok S' := by
  obtain ⟨tip, ht, hv, rfl⟩ := DB.addTx_eq_ok hc
  have ht' : bestBlockHash (S.addTx s) = .ok tip := by
    rw [← ht]
    simp only [bestBlockHash, bestRow, addTx_blocks]
  have hv' : validTx C (S.addTx s) s tip = .ok () := by
    rw [← hv]
    simp only [validTx, selectBalance, selectIncluded, addTx_balances, addTx_includedTxs]
  simp only [DB.addTx, ht', hv', Except.ok_bind, addTx_addTx]
  rfl

end Store

open Store

variable {C : Crypto} {S S' : Store}

/-- Every operation, committed again on the store it left, commits again and changes
nothing: a block, a chain, a transaction or a peer delivered twice, and a `PendingTxs` or a
`RemovePeer` run twice, leave the store as the first delivery did. -/
theorem op_idempotent (hS : Reachable C S) (op : Op) (h : op.run C S = .ok S') :
    op.run C S' = .ok S' := by
  have hI := hS.inv
  cases op with
  | addBlock b => exact addBlock_again hI.wf h
  | addBlocks bs => exact DB.addBlocks_again hI.wf h
  | addTx s => exact DB.addTx_again h
  | pendingTxs tip limit =>
      cases hp : DB.pendingTxs C tip limit S with
      | error e => simp [Op.run, hp, Except.map] at h
      | ok res =>
          simp only [Op.run, hp, Except.map, Except.ok.injEq] at h
          subst h
          simp only [Op.run, DB.pendingTxs_again hI hp, Except.map]
  | addPeer p =>
      simp only [Op.run, Except.ok.injEq] at h ⊢
      subst h
      have hp : p ∈ (S.insertPeer p).1.peers := by
        unfold insertPeer
        split
        · assumption
        · exact List.mem_append_right _ (List.mem_singleton_self p)
      rw [show ((S.insertPeer p).1).insertPeer p = ((S.insertPeer p).1, 0) from if_pos hp]
  | removePeer p =>
      simp only [Op.run, Except.ok.injEq] at h ⊢
      subst h
      simp [deletePeer, List.filter_filter]

open LongChain in
/-- `pendingTx` delivered twice: the second `AddTx` commits and changes nothing. -/
theorem op_idempotent_addTx : Reachable C₀ spendStore ∧
    Op.run C₀ (.addTx pendingTx) spendStore = .ok pendingStore ∧
    Op.run C₀ (.addTx pendingTx) pendingStore = .ok pendingStore :=
  ⟨spendStore_reachable, pendingStore_spec.1,
    op_idempotent spendStore_reachable (.addTx pendingTx) pendingStore_spec.1⟩

/-- Each `mine()` loop calls `PendingTxs` on the same tip until the tip changes: the second
call deletes nothing and returns the transactions of the first. -/
theorem pendingTxs_idempotent (hS : Reachable C S) {tip : Hash} {limit : Int}
    {L : Option (List SignedTx)} (hc : DB.pendingTxs C tip limit S = .ok (S', L)) :
    DB.pendingTxs C tip limit S' = .ok (S', L) :=
  DB.pendingTxs_again hS.inv hc

open LongChain in
/-- The miner's second call on `pendingStore` picks `pendingTx` again. -/
theorem pendingTxs_idempotent_pendingStore : Reachable C₀ pendingStore ∧
    DB.pendingTxs C₀ spendBlock.hash 10 pendingStore = .ok (pendingStore, some [pendingTx]) ∧
    DB.pendingTxs C₀ spendBlock.hash 10 pendingStore = .ok (pendingStore, some [pendingTx]) :=
  ⟨pendingStore_reachable, pendingStore_pendingTxs,
    pendingTxs_idempotent pendingStore_reachable pendingStore_pendingTxs⟩

end Cryptopuff
