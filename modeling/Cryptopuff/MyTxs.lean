import Cryptopuff.Queries

/-!
# The node's own transactions (`DB.MyTxs`)

`MyTxs` is a `SELECT DISTINCT` over a join of `txs` with `keys` and three `LEFT JOIN`s, sorted
by two keys. `Store.myTxsJoin` is the join row by row, `leftJoin` the `NULL` row a `LEFT JOIN`
adds when nothing matches, `List.dedup` the `DISTINCT` and `List.mergeSort` the `ORDER BY`.

Read `myTxs_lists_wallet_txs` first: on every reachable store `MyTxs` lists exactly the stored
transactions from or to an address of `keys`, flagged included exactly when the best chain
includes them, with the height of every stored block that lists them, the pending ones first.
Its pending entries are what `AllPendingTxs` serves (`myTxs_pending_agrees_allPendingTxs`).
-/

namespace Cryptopuff

open Store

variable {C : Crypto} {S : Store}

/-- `PersonalTx`: a transaction from or to an address of the node, whether the best chain
includes it, and the height of a block that lists it, `0` for none. -/
structure PersonalTx where
  stx : SignedTx
  included : Bool
  height : Int
deriving DecidableEq

/-- The rows a `LEFT JOIN` pairs with one row of its left side: one per matching row, or one
row of `NULL`s when none matches. -/
def leftJoin {α : Type} (matching : List α) : List (Option α) :=
  if matching.isEmpty then [none] else matching.map some

@[simp] theorem none_mem_leftJoin {α : Type} {matching : List α} :
    none ∈ leftJoin matching ↔ matching = [] := by
  unfold leftJoin
  cases matching <;> simp

@[simp] theorem some_mem_leftJoin {α : Type} {matching : List α} {a : α} :
    some a ∈ leftJoin matching ↔ a ∈ matching := by
  unfold leftJoin
  cases matching <;> simp

/-- A row of the query of `DB.MyTxs`: `t.tx`, `included` and `b.height`. -/
structure MyTxRow where
  tx : List Char
  included : Bool
  height : Option Int
deriving DecidableEq

namespace Store

/-- `LEFT JOIN included_txs i ON i.tx_hash = t.hash AND i.block_hash = ?`, read as
`i.tx_hash IS NOT NULL`. -/
def joinIncluded (S : Store) (tip txHash : Hash) : List Bool :=
  (leftJoin (S.includedTxs.filter fun i =>
    Hash.sqlEq i.txHash txHash && Hash.sqlEq i.blockHash tip)).map Option.isSome

/-- `LEFT JOIN block_txs bt ON bt.tx_hash = t.hash LEFT JOIN blocks b ON b.hash = bt.block_hash`,
read as `b.height`. -/
def joinHeights (S : Store) (txHash : Hash) : List (Option Int) :=
  (leftJoin (S.blockTxs.filter fun bt => Hash.sqlEq bt.txHash txHash)).flatMap fun bt =>
    (leftJoin (S.blocks.filter fun b => bt.any fun bt => Hash.sqlEq b.hash bt.blockHash)).map
      fun b => b.map (·.height)

/-- The join of `DB.MyTxs` before `DISTINCT` and `ORDER BY`: each row of `txs` once for every
key whose address is its source or its destination, times the rows of the `LEFT JOIN`s. -/
def myTxsJoin (S : Store) (keys : List KeyRow) (tip : Hash) : List MyTxRow :=
  S.txs.flatMap fun t =>
    (keys.filter fun k => k.address == t.source || k.address == t.destination).flatMap fun _ =>
      (S.joinIncluded tip t.hash).flatMap fun included =>
        (S.joinHeights t.hash).map fun height => ⟨t.tx, included, height⟩

end Store

/-- `b.height DESC`: the higher block first, and `NULL`, which SQLite sorts below every value,
last. -/
def heightDesc : Option Int → Option Int → Bool
  | some h, some h' => decide (h' ≤ h)
  | _, none => true
  | none, some _ => false

/-- `ORDER BY included ASC, b.height DESC`. -/
def myTxsOrder (r r' : MyTxRow) : Bool :=
  if r.included = r'.included then heightDesc r.height r'.height else !r.included

/-- One row of `DB.MyTxs` read back: `json.Unmarshal` and `UpdateHash` of `t.tx`, and
`height.Int64`, which is `0` for `NULL`. -/
def readPersonalTx (C : Crypto) (r : MyTxRow) : Except Err PersonalTx := do
  let stx ← decodeSignedTx C r.tx
  pure ⟨stx, r.included, r.height.getD 0⟩

/-- `DB.MyTxs`: the transactions from or to an address of `keys`, without repeated rows, the
pending ones first and each group by descending height. SQLite leaves open the order of rows
the two keys do not separate; here it is that of a stable sort of the joined rows. -/
def DB.myTxs (C : Crypto) (W : Wallet) (S : Store) : Except Err (Option (List PersonalTx)) := do
  let hash ← bestBlockHash S
  let rows := (S.myTxsJoin W.keys hash).dedup.mergeSort myTxsOrder
  let ptxs ← rows.mapM (readPersonalTx C)
  pure (if ptxs = [] then none else some ptxs)

theorem heightDesc_trans : ∀ x y z, heightDesc x y → heightDesc y z → heightDesc x z := by
  rintro (_ | x) (_ | y) (_ | z) h₁ h₂ <;> simp_all [heightDesc]
  omega

theorem heightDesc_total : ∀ x y, heightDesc x y || heightDesc y x := by
  rintro (_ | x) (_ | y) <;> simp [heightDesc]
  omega

theorem myTxsOrder_trans : ∀ r r' r'', myTxsOrder r r' → myTxsOrder r' r'' → myTxsOrder r r'' := by
  rintro ⟨_, (_ | _), x⟩ ⟨_, (_ | _), y⟩ ⟨_, (_ | _), z⟩ <;> simp [myTxsOrder] <;>
    exact heightDesc_trans x y z

theorem myTxsOrder_total : ∀ r r', myTxsOrder r r' || myTxsOrder r' r := by
  rintro ⟨_, (_ | _), x⟩ ⟨_, (_ | _), y⟩ <;> simp [myTxsOrder, heightDesc_total]

/-- Sorting puts the pending rows first. -/
theorem myTxsOrder_included {r r' : MyTxRow} (h : myTxsOrder r r') :
    r.included → r'.included := by
  unfold myTxsOrder at h
  split_ifs at h with he
  · exact fun hr => he ▸ hr
  · intro hr
    simp [hr] at h

theorem readPersonalTx_eq_ok {C : Crypto} {r : MyTxRow} {p : PersonalTx} :
    readPersonalTx C r = .ok p ↔
      ∃ s, decodeSignedTx C r.tx = .ok s ∧ p = ⟨s, r.included, r.height.getD 0⟩ := by
  unfold readPersonalTx
  cases decodeSignedTx C r.tx <;> simp [eq_comm]

namespace Store

theorem mem_joinIncluded {tip h : Hash} {b : Bool} :
    b ∈ S.joinIncluded tip h ↔ b = S.selectIncluded tip h := by
  have hsel : S.selectIncluded tip h = !(S.includedTxs.filter fun i =>
      Hash.sqlEq i.txHash h && Hash.sqlEq i.blockHash tip).isEmpty := by
    rw [selectIncluded, Bool.eq_iff_iff]
    simp [List.filter_eq_nil_iff, Bool.and_comm]
  rw [hsel, joinIncluded, leftJoin]
  cases S.includedTxs.filter fun i => Hash.sqlEq i.txHash h && Hash.sqlEq i.blockHash tip <;>
    cases b <;> simp

/-- On a well-formed store, the heights joined to a transaction are those of the stored blocks
that list it, or one `NULL` when none does. -/
theorem mem_joinHeights (hW : S.WellFormed) {h : Hash} (hh : h ≠ emptyHash) {x : Option Int} :
    x ∈ S.joinHeights h ↔ (x = none ∧ ∀ l ∈ S.blockTxs, l.txHash ≠ h) ∨
      ∃ l ∈ S.blockTxs, l.txHash = h ∧
        ∃ r ∈ S.blocks, r.hash = l.blockHash ∧ x = some r.height := by
  have htx : ∀ l : Link, Hash.sqlEq l.txHash h = true ↔ l.txHash = h := fun l => by
    simp [Hash.sqlEq, hh]
  have hblock : ∀ l ∈ S.blockTxs, ∀ r : BlockRow,
      Hash.sqlEq r.hash l.blockHash = true ↔ r.hash = l.blockHash := fun l hl r => by
    obtain ⟨r', hr', he⟩ := List.mem_map.1 (hW.blockTxs_stored l hl)
    simp [Hash.sqlEq, ← he, hW.hash_ne r' hr']
  unfold joinHeights
  rw [List.mem_flatMap]
  constructor
  · rintro ⟨_ | l, hbt, hx⟩
    · rw [none_mem_leftJoin, List.filter_eq_nil_iff] at hbt
      simp only [Option.any_none, List.filter_false, none_mem_leftJoin, leftJoin, List.isEmpty_nil,
        if_true, List.map_cons, List.map_nil, List.mem_singleton, Option.map_none'] at hx
      exact .inl ⟨hx, fun l hl he => hbt l hl ((htx l).2 he)⟩
    · obtain ⟨hl, hlh⟩ := List.mem_filter.1 (some_mem_leftJoin.1 hbt)
      obtain ⟨_ | r, hb, rfl⟩ := List.mem_map.1 hx
      · rw [none_mem_leftJoin, List.filter_eq_nil_iff] at hb
        obtain ⟨r, hr, he⟩ := List.mem_map.1 (hW.blockTxs_stored l hl)
        exact absurd (by simpa using (hblock l hl r).2 he) (hb r hr)
      · obtain ⟨hr, hrl⟩ := List.mem_filter.1 (some_mem_leftJoin.1 hb)
        exact .inr ⟨l, hl, (htx l).1 hlh, r, hr, (hblock l hl r).1 (by simpa using hrl), rfl⟩
  · rintro (⟨rfl, hnone⟩ | ⟨l, hl, rfl, r, hr, hrl, rfl⟩)
    · refine ⟨none, none_mem_leftJoin.2 (List.filter_eq_nil_iff.2 fun l hl he => hnone l hl
        ((htx l).1 he)), ?_⟩
      simp [leftJoin]
    · refine ⟨some l, some_mem_leftJoin.2 (List.mem_filter.2 ⟨hl, (htx l).2 rfl⟩), ?_⟩
      exact List.mem_map.2 ⟨some r, some_mem_leftJoin.2 (List.mem_filter.2 ⟨hr, by
        simpa using (hblock l hl r).2 hrl⟩), rfl⟩

/-- The heights joined to one transaction are all `NULL`, or none is. -/
theorem joinHeights_none (hW : S.WellFormed) {h : Hash} (hh : h ≠ emptyHash) {x : Option Int}
    (hn : none ∈ S.joinHeights h) (hx : x ∈ S.joinHeights h) : x = none := by
  rcases (mem_joinHeights hW hh).1 hn with ⟨-, hnone⟩ | ⟨l, -, -, r, -, -, he⟩
  · rcases (mem_joinHeights hW hh).1 hx with ⟨rfl, -⟩ | ⟨l, hl, hlt, -⟩
    · rfl
    · exact absurd hlt (hnone l hl)
  · cases he

/-- The rows of the join of `DB.MyTxs`: a stored transaction of one of the keys' addresses,
whether the block `tip` includes it, and a height `joinHeights` gives it. -/
theorem mem_myTxsJoin {keys : List KeyRow} {tip : Hash} {r : MyTxRow} :
    r ∈ S.myTxsJoin keys tip ↔ ∃ t ∈ S.txs,
      (∃ k ∈ keys, k.address = t.source ∨ k.address = t.destination) ∧ r.tx = t.tx ∧
        r.included = S.selectIncluded tip t.hash ∧ r.height ∈ S.joinHeights t.hash := by
  obtain ⟨tx, included, height⟩ := r
  simp only [myTxsJoin, List.mem_flatMap, List.mem_filter, List.mem_map, mem_joinIncluded,
    Bool.or_eq_true, beq_iff_eq, MyTxRow.mk.injEq]
  constructor
  · rintro ⟨t, ht, k, ⟨hk, hka⟩, _, rfl, x, hx, rfl, rfl, rfl⟩
    exact ⟨t, ht, ⟨k, hk, hka⟩, rfl, rfl, hx⟩
  · rintro ⟨t, ht, ⟨k, hk, hka⟩, rfl, rfl, hx⟩
    exact ⟨t, ht, k, ⟨hk, hka⟩, _, rfl, height, hx, rfl, rfl, rfl⟩

/-- The rows of the join of `MyTxs` at the best block, read back: the stored transactions of
the keys' addresses, each with its hash, whether the best chain includes it, and the height of
a stored block that lists it, or `0` when none does. -/
theorem Inv.readPersonalTx_myTxsJoin (hI : S.Inv C) {chain : List Block} {T : Block}
    (hsc : S.StoredChain C (chain ++ [T])) (hT : T.hash ≠ emptyHash) (keys : List KeyRow)
    (p : PersonalTx) :
    (∃ r ∈ S.myTxsJoin keys T.hash, readPersonalTx C r = .ok p) ↔
      p.stx.updateHash C = p.stx ∧ p.stx.row ∈ S.txs ∧
        (∃ k ∈ keys, k.address = p.stx.row.source ∨ k.address = p.stx.row.destination) ∧
        p.included = decide (p.stx.hash ∈ (Ledger.ofChain (chain ++ [T])).inc) ∧
        ((p.height = 0 ∧ ∀ l ∈ S.blockTxs, l.txHash ≠ p.stx.hash) ∨
          ∃ l ∈ S.blockTxs, l.txHash = p.stx.hash ∧
            ∃ r ∈ S.blocks, r.hash = l.blockHash ∧ p.height = r.height) := by
  constructor
  · rintro ⟨r, hr, hrp⟩
    obtain ⟨t, ht, hk, htx, hri, hrh⟩ := mem_myTxsJoin.1 hr
    obtain ⟨s, hs, rfl, hdec⟩ := hI.decode_txRow ht
    obtain ⟨s', hs', rfl⟩ := readPersonalTx_eq_ok.1 hrp
    cases (htx ▸ hs').symm.trans hdec
    refine ⟨hs, ht, hk, hri.trans (hI.selectIncluded_best hsc hT ht), ?_⟩
    rcases (mem_joinHeights hI.wf (hI.wf.txs_ne _ ht)).1 hrh with
      ⟨hn, hnone⟩ | ⟨l, hl, hlt, b, hb, hbl, hbh⟩
    · exact .inl ⟨by simp [hn], hnone⟩
    · exact .inr ⟨l, hl, hlt, b, hb, hbl, by simp [hbh]⟩
  · rintro ⟨hs, ht, hk, hpi, hh⟩
    obtain ⟨stx, included, height⟩ := p
    have hx : ∃ x ∈ S.joinHeights stx.row.hash, x.getD 0 = height := by
      rcases hh with ⟨rfl, hnone⟩ | ⟨l, hl, hlt, b, hb, hbl, rfl⟩
      · exact ⟨none, (mem_joinHeights hI.wf (hI.wf.txs_ne _ ht)).2 (.inl ⟨rfl, hnone⟩), rfl⟩
      · exact ⟨some b.height, (mem_joinHeights hI.wf (hI.wf.txs_ne _ ht)).2
          (.inr ⟨l, hl, hlt, b, hb, hbl, rfl⟩), rfl⟩
    obtain ⟨x, hxm, rfl⟩ := hx
    refine ⟨⟨stx.row.tx, included, x⟩, mem_myTxsJoin.2
      ⟨stx.row, ht, hk, rfl, hpi.trans (hI.selectIncluded_best hsc hT ht).symm, hxm⟩, ?_⟩
    exact readPersonalTx_eq_ok.2 ⟨stx, decodeSignedTx_row hs, rfl⟩

/-- Two rows of the join of `MyTxs` that read back to one entry are one row: the entry gives the
transaction and so its row of `txs`, and a height that reads as `0` is `NULL` only when no block
lists the transaction, and then the other one is `NULL` too. -/
theorem Inv.myTxsJoin_inj (hI : S.Inv C) {keys : List KeyRow} {tip : Hash} {r r' : MyTxRow}
    (hr : r ∈ S.myTxsJoin keys tip) (hr' : r' ∈ S.myTxsJoin keys tip) {p : PersonalTx}
    (hp : readPersonalTx C r = .ok p) (hp' : readPersonalTx C r' = .ok p) : r = r' := by
  obtain ⟨t, ht, -, htx, -, hrh⟩ := mem_myTxsJoin.1 hr
  obtain ⟨t', ht', -, htx', -, hrh'⟩ := mem_myTxsJoin.1 hr'
  obtain ⟨s, -, rfl, hdec⟩ := hI.decode_txRow ht
  obtain ⟨s', -, rfl, hdec'⟩ := hI.decode_txRow ht'
  obtain ⟨x, hx, rfl⟩ := readPersonalTx_eq_ok.1 hp
  obtain ⟨x', hx', he⟩ := readPersonalTx_eq_ok.1 hp'
  cases (htx ▸ hx).symm.trans hdec
  cases (htx' ▸ hx').symm.trans hdec'
  obtain ⟨rfl, hi, hh⟩ := PersonalTx.mk.inj he
  have hW := hI.wf
  have hne := hW.txs_ne _ ht
  obtain ⟨tx, inc, height⟩ := r
  obtain ⟨tx', inc', height'⟩ := r'
  simp only at htx htx' hi hh hrh hrh'
  subst htx htx' hi
  congr
  rcases height with _ | a <;> rcases height' with _ | b
  · rfl
  · cases joinHeights_none hW hne hrh hrh'
  · cases joinHeights_none hW hne hrh' hrh
  · simp only [Option.getD_some] at hh
    rw [hh]

end Store

/-- `MyTxs` reads its sorted rows back in order, so the pending ones still come first. -/
theorem pairwise_included_of_mapM {C : Crypto} {rows : List MyTxRow} {ptxs : List PersonalTx}
    (hp : rows.mapM (readPersonalTx C) = .ok ptxs)
    (hs : rows.Pairwise fun r r' => myTxsOrder r r') :
    ptxs.Pairwise fun p q => p.included → q.included := by
  have hmap : ptxs.map PersonalTx.included = rows.map MyTxRow.included :=
    map_eq_of_forall₂ ((mapM_forall₂ hp).imp fun p r h => by
      obtain ⟨s, -, rfl⟩ := readPersonalTx_eq_ok.1 h
      rfl)
  rw [← List.pairwise_map (R := fun a b : Bool => a → b), hmap, List.pairwise_map]
  exact hs.imp myTxsOrder_included

/-- `MyTxs` at the best block of a stored chain. -/
theorem Store.Inv.myTxs_spec (hI : S.Inv C) {chain : List Block} {T : Block}
    (hsc : S.StoredChain C (chain ++ [T])) (hbest : S.bestRow = some T.row)
    (hT : T.hash ≠ emptyHash) (W : Wallet) :
    ∃ L, DB.myTxs C W S = .ok L ∧
      (∀ p, p ∈ L.getD [] ↔ p.stx.updateHash C = p.stx ∧ p.stx.row ∈ S.txs ∧
        (∃ k ∈ W.keys, k.address = p.stx.row.source ∨ k.address = p.stx.row.destination) ∧
        p.included = decide (p.stx.hash ∈ (Ledger.ofChain (chain ++ [T])).inc) ∧
        ((p.height = 0 ∧ ∀ l ∈ S.blockTxs, l.txHash ≠ p.stx.hash) ∨
          ∃ l ∈ S.blockTxs, l.txHash = p.stx.hash ∧
            ∃ r ∈ S.blocks, r.hash = l.blockHash ∧ p.height = r.height)) ∧
      (L.getD []).Pairwise (fun p q => p.included → q.included) ∧ (L.getD []).Nodup := by
  have hrows : ∀ r, r ∈ (S.myTxsJoin W.keys T.hash).dedup.mergeSort myTxsOrder ↔
      r ∈ S.myTxsJoin W.keys T.hash := fun r => by
    rw [List.mem_mergeSort, List.mem_dedup]
  have hread : ∀ r ∈ (S.myTxsJoin W.keys T.hash).dedup.mergeSort myTxsOrder,
      ∃ p, readPersonalTx C r = .ok p := fun r hr => by
    obtain ⟨t, ht, -, htx, -⟩ := mem_myTxsJoin.1 ((hrows r).1 hr)
    obtain ⟨s, -, -, hs⟩ := hI.decode_txRow ht
    exact ⟨_, readPersonalTx_eq_ok.2 ⟨s, htx ▸ hs, rfl⟩⟩
  obtain ⟨ptxs, hp⟩ := mapM_ok_of_forall hread
  have hget : (if ptxs = [] then none else some ptxs).getD [] = ptxs := by
    split_ifs with h <;> simp [h]
  refine ⟨if ptxs = [] then none else some ptxs, ?_, fun p => ?_, ?_, ?_⟩
  · simp only [DB.myTxs, bestBlockHash, hbest, Block.row_hash, hp, Except.ok_bind]
    rfl
  · rw [hget, mem_of_mapM hp, ← hI.readPersonalTx_myTxsJoin hsc hT W.keys p]
    exact exists_congr fun r => and_congr_left fun _ => hrows r
  · rw [hget]
    exact pairwise_included_of_mapM hp
      (List.sorted_mergeSort myTxsOrder_trans myTxsOrder_total _)
  · -- `DISTINCT` leaves each row once, and no two rows read back alike
    rw [hget]
    exact nodup_of_mapM hp ((List.mergeSort_perm _ _).nodup_iff.2 (List.nodup_dedup _))
      fun r hr r' hr' p h h' => hI.myTxsJoin_inj ((hrows r).1 hr) ((hrows r').1 hr') h h'

/-- On every reachable store, `MyTxs` lists exactly the stored transactions from or to an
address of `keys`, each with whether the best chain includes it and with the height of each
stored block that lists it, or `0` when no block lists it; the pending ones come first, and no
entry appears twice, so a transaction has one entry per such height. -/
theorem myTxs_lists_wallet_txs (hS : Reachable C S) (hG : (genesisBlock C).hash ≠ emptyHash)
    (W : Wallet) :
    ∃ chain T, S.StoredChain C (chain ++ [T]) ∧ DB.bestBlock C S = .ok T ∧
      ∃ L, DB.myTxs C W S = .ok L ∧
        (∀ p, p ∈ L.getD [] ↔ p.stx.updateHash C = p.stx ∧ p.stx.row ∈ S.txs ∧
          (∃ k ∈ W.keys, k.address = p.stx.row.source ∨ k.address = p.stx.row.destination) ∧
          p.included = decide (p.stx.hash ∈ (Ledger.ofChain (chain ++ [T])).inc) ∧
          ((p.height = 0 ∧ ∀ l ∈ S.blockTxs, l.txHash ≠ p.stx.hash) ∨
            ∃ l ∈ S.blockTxs, l.txHash = p.stx.hash ∧
              ∃ r ∈ S.blocks, r.hash = l.blockHash ∧ p.height = r.height)) ∧
        (L.getD []).Pairwise (fun p q => p.included → q.included) ∧ (L.getD []).Nodup := by
  have hI := hS.inv
  obtain ⟨chain, T, hsc, hbest, hbb, -, hT⟩ := hI.best (List.ne_nil_of_mem (hS.genesis_mem hG))
  exact ⟨chain, T, hsc, hbb, hI.myTxs_spec hsc hbest hT W⟩

open LongChain in
theorem myTxs_lists_wallet_txs_minerWallet : Reachable C₀ pendingStore ∧
    (genesisBlock C₀).hash ≠ emptyHash ∧
    ∃ chain T, pendingStore.StoredChain C₀ (chain ++ [T]) ∧ DB.bestBlock C₀ pendingStore = .ok T ∧
      ∃ L, DB.myTxs C₀ minerWallet pendingStore = .ok L ∧
        (∀ p, p ∈ L.getD [] ↔ p.stx.updateHash C₀ = p.stx ∧ p.stx.row ∈ pendingStore.txs ∧
          (∃ k ∈ minerWallet.keys, k.address = p.stx.row.source ∨ k.address = p.stx.row.destination) ∧
          p.included = decide (p.stx.hash ∈ (Ledger.ofChain (chain ++ [T])).inc) ∧
          ((p.height = 0 ∧ ∀ l ∈ pendingStore.blockTxs, l.txHash ≠ p.stx.hash) ∨
            ∃ l ∈ pendingStore.blockTxs, l.txHash = p.stx.hash ∧
              ∃ r ∈ pendingStore.blocks, r.hash = l.blockHash ∧ p.height = r.height)) ∧
        (L.getD []).Pairwise (fun p q => p.included → q.included) ∧ (L.getD []).Nodup :=
  ⟨pendingStore_reachable, genesis_hash_ne,
    myTxs_lists_wallet_txs pendingStore_reachable genesis_hash_ne minerWallet⟩

/-- On every reachable store, the pending entries of `MyTxs` are the transactions
`AllPendingTxs` serves: an entry is flagged pending exactly when `AllPendingTxs` lists its
transaction, and every transaction `AllPendingTxs` lists from or to an address of `keys` is a
pending entry of `MyTxs`. -/
theorem myTxs_pending_agrees_allPendingTxs (hS : Reachable C S)
    (hG : (genesisBlock C).hash ≠ emptyHash) (W : Wallet) :
    ∃ LA LM, DB.allPendingTxs C S = .ok LA ∧ DB.myTxs C W S = .ok LM ∧
      (∀ p ∈ LM.getD [], p.included = false ↔ p.stx ∈ LA.getD []) ∧
      ∀ s ∈ LA.getD [],
        (∃ k ∈ W.keys, k.address = s.row.source ∨ k.address = s.row.destination) →
          ∃ p ∈ LM.getD [], p.stx = s ∧ p.included = false := by
  have hI := hS.inv
  obtain ⟨chain, T, hsc, hbest, -, -, hT⟩ := hI.best (List.ne_nil_of_mem (hS.genesis_mem hG))
  obtain ⟨LA, hLA, hhashed, hmap⟩ := hI.allPendingTxs_spec hsc hbest hT
  obtain ⟨LM, hLM, hmem, -, -⟩ := hI.myTxs_spec hsc hbest hT W
  have hpending : ∀ s : SignedTx, s.updateHash C = s →
      (s ∈ LA.getD [] ↔ s.row ∈ S.txs ∧ s.hash ∉ (Ledger.ofChain (chain ++ [T])).inc) := by
    intro s hs
    have hrow : s.row ∈ (LA.getD []).map SignedTx.row ↔
        s.row ∈ S.txs ∧ s.hash ∉ (Ledger.ofChain (chain ++ [T])).inc := by
      rw [hmap, List.mem_filter, decide_eq_true_iff]
      rfl
    rw [← hrow]
    refine ⟨List.mem_map_of_mem _, fun h => ?_⟩
    obtain ⟨s', hs', he⟩ := List.mem_map.1 h
    cases (decodeSignedTx_row (hhashed s' hs')).symm.trans (he ▸ decodeSignedTx_row hs)
    exact hs'
  refine ⟨LA, LM, hLA, hLM, fun p hp => ?_, fun s hs hk => ?_⟩
  · obtain ⟨hs, ht, -, hinc, -⟩ := (hmem p).1 hp
    rw [hpending _ hs, hinc]
    simp [ht]
  · have hs' := hhashed s hs
    obtain ⟨ht, hn⟩ := (hpending s hs').1 hs
    have hfalse : false = decide (s.hash ∈ (Ledger.ofChain (chain ++ [T])).inc) :=
      (decide_eq_false hn).symm
    by_cases hb : ∃ l ∈ S.blockTxs, l.txHash = s.hash
    · obtain ⟨l, hl, hlt⟩ := hb
      obtain ⟨r, hr, hrl⟩ := List.mem_map.1 (hI.wf.blockTxs_stored l hl)
      exact ⟨⟨s, false, r.height⟩, (hmem _).2 ⟨hs', ht, hk, hfalse,
        .inr ⟨l, hl, hlt, r, hr, hrl, rfl⟩⟩, rfl, rfl⟩
    · push_neg at hb
      exact ⟨⟨s, false, 0⟩, (hmem _).2 ⟨hs', ht, hk, hfalse, .inl ⟨rfl, hb⟩⟩, rfl, rfl⟩

open LongChain in
theorem myTxs_pending_agrees_allPendingTxs_minerWallet : Reachable C₀ pendingStore ∧
    (genesisBlock C₀).hash ≠ emptyHash ∧
    ∃ LA LM, DB.allPendingTxs C₀ pendingStore = .ok LA ∧
      DB.myTxs C₀ minerWallet pendingStore = .ok LM ∧
      (∀ p ∈ LM.getD [], p.included = false ↔ p.stx ∈ LA.getD []) ∧
      ∀ s ∈ LA.getD [],
        (∃ k ∈ minerWallet.keys, k.address = s.row.source ∨ k.address = s.row.destination) →
          ∃ p ∈ LM.getD [], p.stx = s ∧ p.included = false :=
  ⟨pendingStore_reachable, genesis_hash_ne,
    myTxs_pending_agrees_allPendingTxs pendingStore_reachable genesis_hash_ne minerWallet⟩

end Cryptopuff
