import Cryptopuff.StoredBlocks

/-!
# The miner's block

`Server.mine` reads the best block `T`, asks `PendingTxs(T.Hash, 10)` for the transactions of
its next block, searches a nonce whose hash passes `Hash.Valid`, and adds
`NewBlock(T, nonce, addr, reward, L)`; an error from `AddBlock` is fatal. `PendingTxs` checks
each pending transaction with `validTemporaryTx` against the scratch table `temp_balances`,
not with `validTx`, so the two checks have to agree.

They do: before each pending row `temp_balances` holds the balances of `T` with the picked
transfers applied (`TempRepr`, `PickInv`), so the list `PendingTxs` returns passes on the
ledger of `T` as `addBlock` checks it (`pendingTxs_txsOk`). Every later store keeps `T` and its
ledger, so a block built on the list is accepted in each of them, whether new or stored
already (`mined_block_accepted`). The one exception is a nonce whose hash is `EmptyHash`: it
passes `Hash.Valid`, and `Hash.Value` binds it as `NULL`, which `blocks.hash` refuses
(`empty_hash_block_refused`).
-/

namespace Cryptopuff

/-! ## `temp_balances` -/

/-- The balance `temp_balances` holds for `a`: its row's, or 0 where there is none. -/
def tempBalance (temp : List TempRow) (a : List UInt8) : Int :=
  match temp.find? (·.address == a) with
  | some r => r.balance
  | none => 0

/-- `temp_balances` holds the balances `bal`, one row per address. -/
structure TempRepr (temp : List TempRow) (bal : List UInt8 → Int) : Prop where
  nodup : (temp.map (·.address)).Nodup
  balance_eq : ∀ a, tempBalance temp a = bal a

/-- A statement that rewrites rows in place and keeps their addresses. -/
theorem tempBalance_map {temp : List TempRow} {g : TempRow → TempRow}
    (hg : ∀ r, (g r).address = r.address) (a : List UInt8) :
    tempBalance (temp.map g) a =
      match temp.find? (·.address == a) with
      | some r => (g r).balance
      | none => 0 := by
  have : ((fun r : TempRow => r.address == a) ∘ g) = fun r => r.address == a := by
    funext r; simp [hg]
  unfold tempBalance
  rw [List.find?_map, this]
  cases temp.find? (·.address == a) <;> rfl

theorem map_address_map {temp : List TempRow} {g : TempRow → TempRow}
    (hg : ∀ r, (g r).address = r.address) : (temp.map g).map (·.address) = temp.map (·.address) := by
  simp [Function.comp_def, hg]

theorem tempBalance_of_find? {temp : List TempRow} {a : List UInt8} {r : TempRow}
    (hf : temp.find? (·.address == a) = some r) : r.address = a := by
  simpa using List.find?_some hf

/-- The rows `copyTemp` inserts go in one by one behind those before them. -/
theorem foldlM_insertTemp_eq_ok : ∀ (rows : List TempRow) {acc temp : List TempRow},
    (acc.map (·.address)).Nodup → rows.foldlM insertTemp acc = .ok temp →
      temp = acc ++ rows ∧ (temp.map (·.address)).Nodup
  | [], acc, temp, hn, h => by cases h; simpa using hn
  | r :: rs, acc, temp, hn, h => by
      simp only [List.foldlM_cons, insertTemp] at h
      split at h
      · cases h
      · next hany =>
          have hn' : ((acc ++ [r]).map (·.address)).Nodup := by
            simp only [List.any_eq_true, beq_iff_eq, not_exists, not_and] at hany
            simpa [List.nodup_append, hn] using fun x hx => hany x hx
          obtain ⟨rfl, h2⟩ := foldlM_insertTemp_eq_ok rs hn' h
          exact ⟨by simp, h2⟩

/-- `copyTemp` gives `temp_balances` the balances of `tip`. -/
theorem copyTemp_repr {S : Store} {tip : Hash} (htip : tip ≠ emptyHash) {temp : List TempRow}
    (hc : copyTemp S tip = .ok temp) : TempRepr temp (S.balanceAt tip) := by
  obtain ⟨rfl, hn⟩ := foldlM_insertTemp_eq_ok _ (by simp) hc
  refine ⟨hn, fun a => ?_⟩
  have hf : (fun r : BalanceRow => Hash.sqlEq r.blockHash tip) = fun r => r.blockHash == tip := by
    funext r; simp [Hash.sqlEq, htip]
  simp only [tempBalance, List.nil_append, hf, List.find?_map, Function.comp_def, Store.balanceAt,
    Store.balancesAt]
  cases (S.balances.filter fun r => r.blockHash == tip).find? (·.address == a) <;> rfl

/-- The inserts of `copyTemp` all succeed on rows with distinct addresses. -/
theorem foldlM_insertTemp_ok : ∀ (rows : List TempRow) {acc : List TempRow},
    ((acc ++ rows).map (·.address)).Nodup → rows.foldlM insertTemp acc = .ok (acc ++ rows)
  | [], acc, _ => by rw [List.append_nil]; rfl
  | r :: rs, acc, hn => by
      have hr : ¬acc.any (·.address == r.address) = true := by
        simp only [List.any_eq_true, beq_iff_eq, not_exists, not_and]
        intro x hx he
        rw [List.map_append, List.nodup_append] at hn
        exact hn.2.2 (List.mem_map_of_mem _ hx) (by rw [he]; exact List.mem_map_of_mem _ (List.mem_cons_self _ _))
      rw [List.foldlM_cons, insertTemp, if_neg hr, Except.ok_bind,
        foldlM_insertTemp_ok rs (by simpa using hn), List.append_assoc, List.singleton_append]

/-- `copyTemp` succeeds on a keyed table: the rows of one block have distinct addresses. -/
theorem copyTemp_ok {S : Store} {tip : Hash} (hK : S.BalancesKeyed) (htip : tip ≠ emptyHash) :
    ∃ temp, copyTemp S tip = .ok temp := by
  have hrows : (S.balances.filter fun r => Hash.sqlEq r.blockHash tip) = S.balancesAt tip := by
    unfold Store.balancesAt; congr 1; funext r; simp [Hash.sqlEq, htip]
  refine ⟨_, foldlM_insertTemp_ok _ ?_⟩
  rw [List.nil_append, hrows, List.map_map]
  exact hK.nodup_address tip

/-- `selectTemp` reads the balance `temp_balances` holds, when it fits in an `int64`. -/
theorem selectTemp_eq_ok {temp : List TempRow} {a : List UInt8} {v : Int}
    (h : selectTemp temp a = .ok v) : v = tempBalance temp a ∧ Int64.InRange v := by
  unfold selectTemp at h
  unfold tempBalance
  split at h
  · next hf => cases h; simp [hf, Int64.InRange]
  · next r hf =>
      rw [hf]
      split_ifs at h with hr
      · cases h; exact ⟨rfl, hr⟩

namespace TempRepr

variable {temp : List TempRow} {bal : List UInt8 → Int}

/-- `UPDATE temp_balances SET balance = balance - ?` on an address with a row. -/
theorem debit (h : TempRepr temp bal) {a : List UInt8} (ha : bal a ≠ 0) (d : Int) :
    TempRepr (debitTemp temp a d) (fun x => bal x - if x = a then d else 0) := by
  have hg : ∀ r : TempRow, (if r.address == a then { r with balance := r.balance - d } else r).address =
      r.address := fun r => by split <;> rfl
  refine ⟨(map_address_map hg).symm ▸ h.nodup, fun x => ?_⟩
  rw [debitTemp, tempBalance_map hg, ← h.balance_eq]
  unfold tempBalance
  cases hf : temp.find? (·.address == x) with
  | none =>
      split_ifs with hx
      · subst hx
        exact absurd (by rw [← h.balance_eq]; simp [tempBalance, hf]) ha
      · simp
  | some r =>
      have hr := tempBalance_of_find? hf
      by_cases hx : x = a <;> simp [hr, hx]

/-- `INSERT ... ON CONFLICT (address) DO UPDATE SET balance = balance + excluded.balance`. -/
theorem credit (h : TempRepr temp bal) (a : List UInt8) (d : Int) :
    TempRepr (creditTemp temp a d) (fun x => bal x + if x = a then d else 0) := by
  unfold creditTemp
  split_ifs with hany
  · have hg : ∀ r : TempRow, (if r.address == a then { r with balance := r.balance + d } else r).address =
        r.address := fun r => by split <;> rfl
    refine ⟨(map_address_map hg).symm ▸ h.nodup, fun x => ?_⟩
    rw [tempBalance_map hg, ← h.balance_eq]
    unfold tempBalance
    cases hf : temp.find? (·.address == x) with
    | none =>
        split_ifs with hx
        · subst hx
          obtain ⟨r, hr, he⟩ := List.any_eq_true.1 hany
          exact absurd hf (by simpa using ⟨r, hr, by simpa using he⟩)
        · simp
    | some r =>
        have hr := tempBalance_of_find? hf
        by_cases hx : x = a <;> simp [hr, hx]
  · simp only [List.any_eq_true, beq_iff_eq, not_exists, not_and] at hany
    refine ⟨by simpa [List.nodup_append, h.nodup] using fun x hx => hany x hx, fun x => ?_⟩
    rw [← h.balance_eq]
    unfold tempBalance
    rw [List.find?_append]
    cases hf : temp.find? (·.address == x) with
    | none =>
        by_cases hx : x = a
        · subst hx; simp
        · simp [Ne.symm hx, hx]
    | some r =>
        have hr := tempBalance_of_find? hf
        have hx : x ≠ a := fun hx => hany r (List.mem_of_find?_eq_some hf) (hr.trans hx)
        simp [hx]

/-- The two statements `PendingTxs` runs for a picked transfer apply it to the balances. -/
theorem applyTx {L : Ledger} (h : TempRepr temp L.bal) {s : SignedTx}
    (hpos : L.bal (Bytes.data s.source) ≠ 0) :
    TempRepr (creditTemp (debitTemp temp (Bytes.data s.source) s.toTx.requiredBalance.val)
      (Bytes.data s.destination) s.amount.val) (L.applyTx s).bal :=
  (h.debit hpos _).credit _ _

end TempRepr

/-- `validTemporaryTx` is `validTx`'s check of validity and balance, on `temp_balances`. -/
theorem validTemporaryTx_eq_ok {C : Crypto} {temp : List TempRow} {bal : List UInt8 → Int}
    (h : TempRepr temp bal) {s : SignedTx} (hc : validTemporaryTx C temp s = .ok ()) :
    s.ValidIn C ∧ Int64.InRange (bal (Bytes.data s.source)) ∧
      s.toTx.requiredBalance.val ≤ bal (Bytes.data s.source) := by
  simp only [validTemporaryTx, Except.bind_eq_ok] at hc
  obtain ⟨⟨⟩, hv, v, hs, hret⟩ := hc
  obtain ⟨rfl, hr⟩ := selectTemp_eq_ok hs
  rw [h.balance_eq] at hr hret
  split_ifs at hret with hlt
  exact ⟨SignedTx.valid_eq_ok.1 hv, hr, not_lt.1 hlt⟩

/-- A transfer that passes on the balances `temp_balances` holds passes `validTemporaryTx`. -/
theorem validTemporaryTx_of_txOk {C : Crypto} {temp : List TempRow} {L : Ledger}
    (h : TempRepr temp L.bal) {s : SignedTx} (hok : L.TxOk C s) :
    validTemporaryTx C temp s = .ok () := by
  have hsel : selectTemp temp (Bytes.data s.source) = .ok (L.bal (Bytes.data s.source)) := by
    have hr := hok.inRange
    rw [← h.balance_eq] at hr ⊢
    unfold selectTemp tempBalance at *
    cases hf : temp.find? (·.address == Bytes.data s.source) with
    | none => rfl
    | some r =>
        rw [hf] at hr
        exact if_pos hr
  simp only [validTemporaryTx, SignedTx.valid_eq_ok.2 hok.valid, hsel, Except.ok_bind,
    if_neg (not_lt.2 hok.covers)]
  rfl

/-! ## The loop of `PendingTxs` -/

/-- What the pending rows carry: hashed transactions, with hashes that are distinct, not
`NULL` and not included by the tip. -/
structure RowsOk (C : Crypto) (L₀ : Ledger) (rows : List TxRow) : Prop where
  hashed : ∀ r ∈ rows, ∃ s : SignedTx, s.updateHash C = s ∧ r = s.row
  fresh : ∀ r ∈ rows, r.hash ∉ L₀.inc
  hash_ne : ∀ r ∈ rows, r.hash ≠ emptyHash
  nodup : (rows.map (·.hash)).Nodup

theorem RowsOk.tail {C : Crypto} {L₀ : Ledger} {r : TxRow} {rows : List TxRow}
    (h : RowsOk C L₀ (r :: rows)) : RowsOk C L₀ rows :=
  ⟨fun x hx => h.hashed x (.tail _ hx), fun x hx => h.fresh x (.tail _ hx),
    fun x hx => h.hash_ne x (.tail _ hx), (List.nodup_cons.1 h.nodup).2⟩

/-- The state of the loop before the rows `rows`: the picked transfers pass on `L₀`, none of
them is among the rows left, and `temp_balances` holds `L₀` with them applied. -/
structure PickInv (C : Crypto) (L₀ : Ledger) (rows : List TxRow) (temp : List TempRow)
    (picked : List SignedTx) : Prop where
  txsOk : L₀.TxsOk C picked
  hashed : ∀ s ∈ picked, s.updateHash C = s
  fresh : ∀ s ∈ picked, s.hash ∉ rows.map (·.hash)
  temp : TempRepr temp (picked.foldl Ledger.applyTx L₀).bal

namespace PickInv

variable {C : Crypto} {L₀ : Ledger} {r : TxRow} {rows : List TxRow} {temp : List TempRow}
  {picked : List SignedTx}

/-- A row the loop skips. -/
theorem skip (h : PickInv C L₀ (r :: rows) temp picked) : PickInv C L₀ rows temp picked :=
  ⟨h.txsOk, h.hashed, fun s hs hm => h.fresh s hs (.tail _ hm), h.temp⟩

/-- A row the loop picks: its transaction passes on the ledger the picked ones leave. -/
theorem pick (h : PickInv C L₀ (r :: rows) temp picked) (hr : RowsOk C L₀ (r :: rows))
    {s : SignedTx} (hs : s.updateHash C = s) (hrow : r = s.row)
    (hc : validTemporaryTx C temp s = .ok ()) :
    PickInv C L₀ rows (creditTemp (debitTemp temp (Bytes.data s.source)
      s.toTx.requiredBalance.val) (Bytes.data s.destination) s.amount.val) (picked ++ [s]) := by
  obtain ⟨hv, hin, hcov⟩ := validTemporaryTx_eq_ok h.temp hc
  have hsr : s.hash = r.hash := by rw [hrow]; rfl
  have hnd := List.nodup_cons.1 hr.nodup
  have hfresh : s.hash ∉ (picked.foldl Ledger.applyTx L₀).inc := by
    rw [Ledger.foldl_applyTx_inc, hsr]
    refine fun hm => (List.mem_append.1 hm).elim (hr.fresh r (List.mem_cons_self _ _)) fun hm => ?_
    obtain ⟨p, hp, he⟩ := List.mem_map.1 hm
    exact h.fresh p hp (he ▸ List.mem_cons_self _ _)
  have hok : (picked.foldl Ledger.applyTx L₀).TxOk C s :=
    ⟨hv, hin, hcov, hfresh, hsr ▸ hr.hash_ne r (List.mem_cons_self _ _)⟩
  refine ⟨h.txsOk.append_singleton hok, fun x hx => ?_, fun x hx hm => ?_, ?_⟩
  · rcases List.mem_append.1 hx with hx | hx
    · exact h.hashed x hx
    · rw [List.mem_singleton.1 hx]; exact hs
  · rcases List.mem_append.1 hx with hx | hx
    · exact h.fresh x hx (.tail _ hm)
    · rw [List.mem_singleton.1 hx, hsr] at hm; exact hnd.1 hm
  · rw [List.foldl_append, List.foldl_cons, List.foldl_nil]
    exact h.temp.applyTx (by have := hv.amounts.requiredBalance_pos; omega)

end PickInv

/-- The loop of `PendingTxs` picks, from rows that carry hashed transactions, a list that
passes on `L₀` and is shorter than `limit`: the pick that reaches `limit` fails the pass. -/
theorem pendingLoop_txsOk {C : Crypto} {L₀ : Ledger} {limit : Int} :
    ∀ (rows : List TxRow) {S : Store} {temp : List TempRow} {picked : List SignedTx}
      {res : Store × List TempRow × List SignedTx},
      RowsOk C L₀ rows → PickInv C L₀ rows temp picked → (picked.length : Int) < limit →
      pendingLoop C limit rows (S, temp, picked) = .ok res →
      L₀.TxsOk C res.2.2 ∧ (res.2.2.length : Int) < limit ∧ ∀ s ∈ res.2.2, s.updateHash C = s
  | [], _, _, _, _, _, h, hl, hc => by
      cases hc
      exact ⟨h.txsOk, hl, h.hashed⟩
  | r :: rows, S, temp, picked, res, hr, h, hl, hc => by
      obtain ⟨s, hs, rfl⟩ := hr.hashed r (List.mem_cons_self _ _)
      have hdec := decodeSignedTx_row hs
      obtain ⟨stx, hd, ⟨-, -, -, hc⟩ | ⟨hv, hlim, hc⟩⟩ := pendingLoop_cons_ok hc <;>
        obtain rfl : s = stx := Except.ok.inj (hdec.symm.trans hd)
      · exact pendingLoop_txsOk rows hr.tail h.skip hl hc
      · exact pendingLoop_txsOk rows hr.tail (h.pick hr hs rfl hv) (by simp; omega) hc

/-- The loop of `PendingTxs` on rows of transfers that all pass, in order, on the balances
`temp_balances` holds: it picks every one while fewer than `limit` are picked, and fails `busy`
at the pick that reaches `limit`. -/
theorem pendingLoop_passing {C : Crypto} (limit : Int) : ∀ (l picked : List SignedTx) {S : Store}
    {temp : List TempRow} {L : Ledger},
    (∀ s ∈ l, s.updateHash C = s) → TempRepr temp L.bal → L.TxsOk C l →
    (((picked.length + l.length : Nat) : Int) < limit → ∃ temp',
      pendingLoop C limit (l.map SignedTx.row) (S, temp, picked) = .ok (S, temp', picked ++ l)) ∧
    (l ≠ [] → limit ≤ ((picked.length + l.length : Nat) : Int) →
      pendingLoop C limit (l.map SignedTx.row) (S, temp, picked) = .error .busy)
  | [], picked, S, temp, _, _, _, _ =>
      ⟨fun _ => ⟨temp, by rw [List.append_nil]; rfl⟩, fun h => absurd rfl h⟩
  | s :: l, picked, S, temp, L, hh, htemp, ⟨hok, hrest⟩ => by
      have hd := decodeSignedTx_row (hh s (List.mem_cons_self _ _))
      have hv := validTemporaryTx_of_txOk htemp hok
      have hpos : L.bal (Bytes.data s.source) ≠ 0 := by
        have := hok.valid.amounts.requiredBalance_pos; have := hok.covers; omega
      have ih := pendingLoop_passing limit l (picked ++ [s]) (S := S) (fun x hx => hh x (.tail _ hx))
        (htemp.applyTx hpos) hrest
      simp only [List.length_append, List.length_cons, List.length_nil] at ih ⊢
      refine ⟨fun hlt => ?_, fun _ hle => ?_⟩
      · obtain ⟨temp', he⟩ := ih.1 (by omega)
        refine ⟨temp', ?_⟩
        rw [List.map_cons, pendingLoop_cons_pick hd hv (by omega), he, List.append_assoc,
          List.singleton_append]
      · by_cases hlim : limit ≤ (picked.length + 1 : Nat)
        · rw [List.map_cons, pendingLoop_cons_limit hd hv hlim]
        · rw [List.map_cons, pendingLoop_cons_pick hd hv hlim]
          exact ih.2 (by rintro rfl; exact hlim (by simpa using hle)) (by omega)

variable {C : Crypto} {S : Store}

/-- The pending rows of a reachable store carry hashed transactions the tip has not
included. -/
theorem Store.Inv.pendingRows_ok (hI : S.Inv C) {tip : Hash} (htip : tip ≠ emptyHash) :
    RowsOk C (S.ledgerAt tip) (S.pendingRows tip) where
  hashed r hr := by
    obtain ⟨s, hs, he⟩ := hI.txs_hashed r (List.mem_filter.1 hr).1
    exact ⟨s, hs, he⟩
  fresh r hr hm := by
    have hne := hI.wf.txs_ne r (List.mem_filter.1 hr).1
    have := (List.mem_filter.1 hr).2
    rw [(Store.selectIncluded_iff htip hne).2 hm] at this
    cases this
  hash_ne r hr := hI.wf.txs_ne r (List.mem_filter.1 hr).1
  nodup := hI.wf.txs_nodup.sublist ((List.filter_sublist _).map _)

/-- `PendingTxs(tip, limit)` with `limit ≥ 1` returns hashed transactions that pass, in
order, on the ledger of `tip`, fewer than `limit` of them. -/
theorem pendingTxs_txsOk (hI : S.Inv C) {tip : Hash} (htip : tip ≠ emptyHash) {limit : Int}
    (hl : 0 < limit) {S₁ : Store} {L : Option (List SignedTx)}
    (hc : DB.pendingTxs C tip limit S = .ok (S₁, L)) :
    (S.ledgerAt tip).TxsOk C (L.getD []) ∧ ((L.getD []).length : Int) < limit ∧
      ∀ s ∈ L.getD [], s.updateHash C = s := by
  simp only [DB.pendingTxs, Except.bind_eq_ok] at hc
  obtain ⟨temp, htemp, acc, hl', hret⟩ := hc
  have hrepr : TempRepr temp (S.ledgerAt tip).bal := by
    rw [Store.ledgerAt_bal]; exact copyTemp_repr htip htemp
  have hinv : PickInv C (S.ledgerAt tip) (S.pendingRows tip) temp [] :=
    ⟨trivial, fun _ h => (List.not_mem_nil _ h).elim, fun _ h => (List.not_mem_nil _ h).elim, hrepr⟩
  have := pendingLoop_txsOk _ (hI.pendingRows_ok htip) hinv (by simpa using hl) hl'
  have hL : L.getD [] = acc.2.2 := by
    cases Except.ok.inj hret
    split_ifs with he <;> simp [he]
  rw [hL]
  exact this

/-- `PendingTxs(tip, limit)` on pending rows whose transfers all pass, in order, on the ledger
of `tip`: with fewer than `limit` it returns them all and deletes nothing, and with `limit` or
more it fails `busy`. -/
theorem Store.Inv.pendingTxs_passing (hI : S.Inv C) {tip : Hash} (htip : tip ≠ emptyHash)
    {l : List SignedTx} (hl : S.pendingRows tip = l.map SignedTx.row)
    (hh : ∀ s ∈ l, s.updateHash C = s) (hok : (S.ledgerAt tip).TxsOk C l) (limit : Int) :
    ((l.length : Int) < limit →
      DB.pendingTxs C tip limit S = .ok (S, if l = [] then none else some l)) ∧
    (l ≠ [] → limit ≤ l.length → DB.pendingTxs C tip limit S = .error .busy) := by
  obtain ⟨temp, htemp⟩ := copyTemp_ok hI.wf.keyed htip
  have hrepr : TempRepr temp (S.ledgerAt tip).bal := by
    rw [Store.ledgerAt_bal]; exact copyTemp_repr htip htemp
  have hloop := pendingLoop_passing limit l [] (S := S) hh hrepr hok
  simp only [List.length_nil, zero_add, List.nil_append] at hloop
  refine ⟨fun hlt => ?_, fun hne hle => ?_⟩
  · obtain ⟨temp', he⟩ := hloop.1 hlt
    simp only [DB.pendingTxs, htemp, hl, he, Except.ok_bind]
    rfl
  · simp only [DB.pendingTxs, htemp, hl, hloop.2 hne hle, Except.ok_bind]
    rfl

/-! ## The block -/

theorem newBlock_txs (p : Block) (nonce : Int64) (addr : Address) (r : Int64)
    (stxs : Option (List SignedTx)) :
    (newBlock C p nonce addr r stxs).txs = (stxs.getD []).map (SignedTx.updateHash C) := by
  rw [newBlock, Block.txs_updateHash]
  rfl

/-- A block built on a stored `T` with transactions that pass on `T`'s ledger is accepted:
committed if new, and a no-op if its hash is stored already. -/
theorem addBlock_newBlock_ok (hI : S.Inv C) {T : Block} (hT : T.row ∈ S.blocks)
    (hTh : T.updateHash C = T) {L : Option (List SignedTx)}
    (ht : (S.ledgerAt T.hash).TxsOk C (L.getD [])) (hh : ∀ s ∈ L.getD [], s.updateHash C = s)
    (hlen : (L.getD []).length ≤ 100) {nonce : Int64} {addr : Address} {reward : Int64}
    (hr0 : 0 ≤ reward.val) (hr : reward.val ≤ 1000)
    (hv : (newBlock C T nonce addr reward L).hash.valid = true)
    (hne : (newBlock C T nonce addr reward L).hash ≠ emptyHash) :
    ∃ S', Op.run C (.addBlock (newBlock C T nonce addr reward L)) S = .ok S' := by
  have hb : (newBlock C T nonce addr reward L).updateHash C = newBlock C T nonce addr reward L :=
    Block.updateHash_idem C _
  have htxs : (newBlock C T nonce addr reward L).txs = L.getD [] := by
    rw [newBlock_txs, List.map_congr_left hh, List.map_id']
  have hrow : S.selectBlock (newBlock C T nonce addr reward L).previousHash = some T.row :=
    Store.selectBlock_of_mem hI.wf.hashes_nodup hT (hI.wf.hash_ne _ hT)
  have hdec := Store.decodeBlock_row hTh
  rw [Op.run, hb]
  by_cases hm : (newBlock C T nonce addr reward L).hash ∈ S.hashes
  · exact ⟨S, by simp only [addBlock, hrow, hdec, Store.insertBlock_of_mem (r := (newBlock C T nonce addr reward L).row) hne hm]⟩
  · refine Store.addBlock_ok hI.wf hrow hdec hne hm ⟨rfl, rfl, hv, hr0, hr, ?_, ?_⟩ (htxs ▸ ht)
    · rw [htxs]; exact hlen
    · rw [htxs]; exact ht.valid

/-- The best block of a reachable store is a stored, hashed block. -/
theorem Store.Inv.bestBlock_stored (hI : S.Inv C) {T : Block} (hT : DB.bestBlock C S = .ok T) :
    T.row ∈ S.blocks ∧ T.updateHash C = T := by
  unfold DB.bestBlock at hT
  split at hT
  · next r hr =>
      obtain ⟨chain, b, rfl, hsc, -⟩ := hI.chain_of_mem (Store.bestRow_mem hr)
      have hb := hsc.hashed b (by simp)
      cases (Store.decodeBlock_row hb).symm.trans hT
      exact ⟨Store.bestRow_mem hr, hb⟩
  · cases hT

/-- The best block of a reachable store is the row `ORDER BY height DESC LIMIT 1` gives, so no
stored row is higher. -/
theorem Store.Inv.bestBlock_max (hI : S.Inv C) {T : Block} (hT : DB.bestBlock C S = .ok T) :
    ∀ r ∈ S.blocks, r.height ≤ T.height.val := by
  unfold DB.bestBlock at hT
  split at hT
  · next r hr =>
      obtain ⟨chain, b, rfl, hsc, -⟩ := hI.chain_of_mem (Store.bestRow_mem hr)
      cases (Store.decodeBlock_row (hsc.hashed b (by simp))).symm.trans hT
      exact Store.bestRow_max hr
  · cases hT

/-- `PendingTxs` fails once `limit` transactions pass. Its loop leaves with `break` at the
`limit`-th pick, with the `SELECT` cursor still open, so the `DROP TABLE temp_balances` after it
fails with `SQLITE_LOCKED`, and so does every retry. On a reachable store whose pending
transfers all pass, in order, on the ledger of the best block `T`, `PendingTxs(T.Hash, limit)`
returns them all and deletes nothing when there are fewer than `limit`, and fails `busy` when
there are `limit` or more; whenever it succeeds with `limit ≥ 1`, it returns fewer than
`limit`. -/
theorem pendingTxs_busy_at_limit (hS : Reachable C S) {T : Block} (hT : DB.bestBlock C S = .ok T)
    {l : List SignedTx} (hl : S.pendingRows T.hash = l.map SignedTx.row)
    (hh : ∀ s ∈ l, s.updateHash C = s) (hok : (S.ledgerAt T.hash).TxsOk C l) (limit : Int) :
    ((l.length : Int) < limit →
      DB.pendingTxs C T.hash limit S = .ok (S, if l = [] then none else some l)) ∧
    (l ≠ [] → limit ≤ l.length → DB.pendingTxs C T.hash limit S = .error .busy) ∧
    (0 < limit → ∀ S₁ L, DB.pendingTxs C T.hash limit S = .ok (S₁, L) →
      ((L.getD []).length : Int) < limit) := by
  have hI := hS.inv
  have hne := hI.wf.hash_ne _ (hI.bestBlock_stored hT).1
  have hp := hI.pendingTxs_passing hne hl hh hok limit
  exact ⟨hp.1, hp.2, fun hpos _ _ hp => (pendingTxs_txsOk hI hne hpos hp).2.1⟩

open LongChain in
theorem pendingTxs_busy_at_limit_pendingStore : Reachable C₀ pendingStore ∧
    DB.bestBlock C₀ pendingStore = .ok spendBlock ∧
    pendingStore.pendingRows spendBlock.hash = [pendingTx].map SignedTx.row ∧
    (∀ s ∈ [pendingTx], s.updateHash C₀ = s) ∧
    (pendingStore.ledgerAt spendBlock.hash).TxsOk C₀ [pendingTx] ∧
    DB.pendingTxs C₀ spendBlock.hash 10 pendingStore = .ok (pendingStore, some [pendingTx]) ∧
    DB.pendingTxs C₀ spendBlock.hash 1 pendingStore = .error .busy :=
  have hp := pendingTxs_busy_at_limit (l := [pendingTx]) pendingStore_reachable
    pendingStore_bestBlock pendingStore_pendingRows pendingTx_mem_hashed pendingTx_txsOk
  ⟨pendingStore_reachable, pendingStore_bestBlock, pendingStore_pendingRows, pendingTx_mem_hashed,
    pendingTx_txsOk, (hp 10).1 (by decide), (hp 1).2.1 (List.cons_ne_nil _ _) (by decide)⟩

namespace LongChain

/-- The miner's call on `pendingStore` picks `pendingTx`. -/
theorem pendingStore_pendingTxs :
    DB.pendingTxs C₀ spendBlock.hash 10 pendingStore = .ok (pendingStore, some [pendingTx]) :=
  (pendingStore_reachable.inv.pendingTxs_passing (l := [pendingTx]) spendBlock_hash_ne
    pendingStore_pendingRows pendingTx_mem_hashed pendingTx_txsOk 10).1 (by decide)

end LongChain

theorem migrate_bestBlock (hG : (genesisBlock C).hash ≠ emptyHash) :
    DB.bestBlock C (migrate C) = .ok (genesisBlock C) := by
  simp only [DB.bestBlock, Store.bestRow, migrate, hG, if_false, List.foldl_cons, List.foldl_nil]
  exact Store.decodeBlock_row (Block.updateHash_idem C _)

theorem migrate_pendingTxs (tip : Hash) (limit : Int) :
    DB.pendingTxs C tip limit (migrate C) = .ok (migrate C, none) :=
  rfl

/-- The block a miner builds is accepted. In a reachable store `S`, with `T` the best block and
`1 ≤ n ≤ 100`, the list `L` that `PendingTxs(T.Hash, n)` returns, on `S` or on any store reached
from it, has fewer than `n` transactions, with distinct hashes that `T` has not included, and
they pass in order on the ledger of `T`. In every store reached after that call,
`AddBlock(NewBlock(T, nonce, addr, reward, L))` succeeds for every reward in `[0, 1000]` and
every nonce whose hash passes `Hash.Valid` and is not `EmptyHash`. -/
theorem mined_block_accepted (hS : Reachable C S) {T : Block} (hT : DB.bestBlock C S = .ok T)
    {n : Int} (hn : 1 ≤ n) (hn' : n ≤ 100) {S' : Store} (hS' : Relation.ReflTransGen (Step C) S S')
    {S₁ : Store} {L : Option (List SignedTx)} (hp : DB.pendingTxs C T.hash n S' = .ok (S₁, L)) :
    ((L.getD []).length : Int) < n ∧ ((L.getD []).map (·.hash)).Nodup ∧
    (∀ s ∈ L.getD [], s.hash ∉ S.includedAt T.hash) ∧ (S.ledgerAt T.hash).TxsOk C (L.getD []) ∧
    ∀ S₂, Relation.ReflTransGen (Step C) S₁ S₂ →
      ∀ (nonce : Int64) (addr : Address) (reward : Int64), 0 ≤ reward.val → reward.val ≤ 1000 →
        (newBlock C T nonce addr reward L).hash.valid = true →
        (newBlock C T nonce addr reward L).hash ≠ emptyHash →
        ∃ S₃, Op.run C (.addBlock (newBlock C T nonce addr reward L)) S₂ = .ok S₃ := by
  obtain ⟨hTr, hTh⟩ := hS.inv.bestBlock_stored hT
  have hR' : Reachable C S' := hS.trans hS'
  have hL : S'.ledgerAt T.hash = S.ledgerAt T.hash := (hS.run_extends hS').ledgerAt_eq _ hTr
  have hne : T.hash ≠ emptyHash := hS.inv.wf.hash_ne _ hTr
  obtain ⟨hok, hlen, hh⟩ := pendingTxs_txsOk hR'.inv hne (by omega) hp
  rw [hL] at hok
  refine ⟨hlen, hok.hashes_nodup, fun s hs => hok.hash_not_mem s hs, hok,
    fun S₂ hrun nonce addr reward hr0 hr hv hne => ?_⟩
  have hstep : Step C S' S₁ := .commit (.pendingTxs T.hash n) (by rw [Op.run, hp]; rfl)
  have hE := hS.run_extends (hS'.trans (.head hstep hrun))
  have hS₂ : Reachable C S₂ := (hR'.tail hstep).trans hrun
  exact addBlock_newBlock_ok hS₂.inv (hE.blocks.subset hTr) hTh
    ((hE.ledgerAt_eq _ hTr).symm ▸ hok) hh (by omega) hr0 hr hv hne

open LongChain in
/-- The miner of `spendStore`, after `AddTx(pendingTx)`, picks `pendingTx` for its block on
`spendBlock`. -/
theorem mined_block_accepted_pendingTx : Reachable C₀ spendStore ∧
    DB.bestBlock C₀ spendStore = .ok spendBlock ∧ (1 : Int) ≤ 10 ∧ (10 : Int) ≤ 100 ∧
    Relation.ReflTransGen (Step C₀) spendStore pendingStore ∧
    DB.pendingTxs C₀ spendBlock.hash 10 pendingStore = .ok (pendingStore, some [pendingTx]) ∧
    ([pendingTx].length : Int) < 10 ∧ ([pendingTx].map (·.hash)).Nodup ∧
    (∀ s ∈ [pendingTx], s.hash ∉ spendStore.includedAt spendBlock.hash) ∧
    (spendStore.ledgerAt spendBlock.hash).TxsOk C₀ [pendingTx] ∧
    ∀ S₂, Relation.ReflTransGen (Step C₀) pendingStore S₂ →
      ∀ (nonce : Int64) (addr : Address) (reward : Int64), 0 ≤ reward.val → reward.val ≤ 1000 →
        (newBlock C₀ spendBlock nonce addr reward (some [pendingTx])).hash.valid = true →
        (newBlock C₀ spendBlock nonce addr reward (some [pendingTx])).hash ≠ emptyHash →
        ∃ S₃, Op.run C₀ (.addBlock (newBlock C₀ spendBlock nonce addr reward (some [pendingTx])))
          S₂ = .ok S₃ :=
  have hstep : Relation.ReflTransGen (Step C₀) spendStore pendingStore :=
    .single (.commit _ pendingStore_spec.1)
  ⟨spendStore_reachable, spendStore_bestBlock, by decide, by decide, hstep, pendingStore_pendingTxs,
    mined_block_accepted spendStore_reachable spendStore_bestBlock (by decide) (by decide) hstep
      pendingStore_pendingTxs⟩

namespace EmptyHashNonce

/-- A digest that is `EmptyHash` on exactly the inputs whose bytes 24 to 31, a header's
nonce, are those of `1`. -/
def nonceMd5 (x : List UInt8) : Hash :=
  if (x.drop 24).take 8 = be64 1 then emptyHash
  else ⟨[0, 0, 0, 1] ++ List.replicate 12 0, by simp⟩

/-- The primitives of the construction. -/
def C₃ : Crypto where
  md5 := nonceMd5
  parsePKCS1PublicKey _ := none
  marshalPKCS1PublicKey _ := []
  verifyPSS _ _ _ := false

theorem genesis_hash_ne : (genesisBlock C₃).hash ≠ emptyHash := by decide

set_option maxRecDepth 10000 in
theorem newBlock_one_hash : (newBlock C₃ (genesisBlock C₃) 1 none 0 none).hash = emptyHash := by
  decide

/-- A block on the best block of a new node, with the transactions `PendingTxs` gives, whose
nonce makes its hash `EmptyHash`: it passes `Hash.Valid`, and `AddBlock` fails on `NOT NULL`. -/
theorem empty_hash_block_refused : ∃ S, Reachable C₃ S ∧ ∃ T, DB.bestBlock C₃ S = .ok T ∧
    ∃ S₁ L, DB.pendingTxs C₃ T.hash 10 S = .ok (S₁, L) ∧
    ∃ (nonce : Int64) (addr : Address) (reward : Int64), 0 ≤ reward.val ∧ reward.val ≤ 1000 ∧
      (newBlock C₃ T nonce addr reward L).hash.valid = true ∧
      Op.run C₃ (.addBlock (newBlock C₃ T nonce addr reward L)) S₁ =
        .error (.constraint false "NOT NULL constraint failed: blocks.hash") := by
  have hrow : (migrate C₃).selectBlock (genesisBlock C₃).hash = some (genesisBlock C₃).row :=
    Store.selectBlock_of_mem (S := migrate C₃) (r := (genesisBlock C₃).row) (by simp [Store.hashes, migrate, genesis_hash_ne])
      (by simp [migrate, genesis_hash_ne]) genesis_hash_ne
  have hb := newBlock_one_hash
  refine ⟨migrate C₃, .refl, genesisBlock C₃, migrate_bestBlock genesis_hash_ne, migrate C₃, none,
    migrate_pendingTxs _ _, 1, none, 0, by decide, by decide, by rw [hb]; rfl, ?_⟩
  have hid : (newBlock C₃ (genesisBlock C₃) 1 none 0 none).updateHash C₃ =
      newBlock C₃ (genesisBlock C₃) 1 none 0 none := Block.updateHash_idem C₃ _
  have hprev : (newBlock C₃ (genesisBlock C₃) 1 none 0 none).previousHash = (genesisBlock C₃).hash :=
    rfl
  have hins : (migrate C₃).insertBlock (newBlock C₃ (genesisBlock C₃) 1 none 0 none).row =
      .error (.constraint false "NOT NULL constraint failed: blocks.hash") := by
    rw [Store.insertBlock, if_pos (by rw [Block.row_hash, hb])]
  have hG : (genesisBlock C₃).updateHash C₃ = genesisBlock C₃ := Block.updateHash_idem C₃ _
  rw [Op.run, hid]
  simp only [addBlock, hprev, hrow, Store.decodeBlock_row hG, hins]

end EmptyHashNonce

end Cryptopuff
