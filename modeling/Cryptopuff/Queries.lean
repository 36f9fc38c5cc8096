import Cryptopuff.Mining
import Cryptopuff.Sync
import Cryptopuff.Resync
import Cryptopuff.Wallet

/-!
# What the read-only methods show

The methods of `DB` that change no table, against the ledger of the best chain. Read
`allPendingTxs_not_in_best_chain` first: on every reachable store, `AllPendingTxs`, which the
`/api/txs` handler serves to peers, lists in table order exactly the stored transactions that
the best chain has not included. `PendingTxs` on the best block picks among them, in their
order (`pendingTxs_sublist_allPendingTxs`).

`Addresses` joins the chain tables with the node's `keys`: it gives every key the balance of
the best chain (`addresses_best_chain_balances`). `MyTxs`, the other such join, has its own
file.
-/

namespace Cryptopuff

/-! ## `mapM` into `Except` -/

section MapM

variable {α β ε : Type} {f : α → Except ε β}

/-- A `mapM` into `Except` that succeeds pairs each result with the element it came from. -/
theorem mapM_forall₂ : ∀ {l : List α} {l' : List β}, l.mapM f = .ok l' →
    List.Forall₂ (fun b a => f a = .ok b) l' l
  | [], _, h => by
      cases Except.ok.inj h
      exact .nil
  | a :: l, l', h => by
      simp only [List.mapM_cons, Except.bind_eq_ok] at h
      obtain ⟨b, hb, bs, hbs, h⟩ := h
      cases Except.ok.inj h
      exact .cons hb (mapM_forall₂ hbs)

/-- A `mapM` into `Except` succeeds when `f` succeeds on every element. -/
theorem mapM_ok_of_forall : ∀ {l : List α}, (∀ a ∈ l, ∃ b, f a = .ok b) → ∃ l', l.mapM f = .ok l'
  | [], _ => ⟨[], rfl⟩
  | a :: l, h => by
      obtain ⟨b, hb⟩ := h a (List.mem_cons_self _ _)
      obtain ⟨l', hl'⟩ := mapM_ok_of_forall fun x hx => h x (.tail _ hx)
      exact ⟨b :: l', by rw [List.mapM_cons, hb, Except.ok_bind, hl', Except.ok_bind]; rfl⟩

/-- The results of a `mapM` into `Except` that succeeds are the results of `f` on the
elements. -/
theorem mem_of_mapM : ∀ {l : List α} {l' : List β}, l.mapM f = .ok l' →
    ∀ {b : β}, b ∈ l' ↔ ∃ a ∈ l, f a = .ok b
  | [], _, h, _ => by
      cases Except.ok.inj h
      simp
  | a :: l, l', h, b => by
      simp only [List.mapM_cons, Except.bind_eq_ok] at h
      obtain ⟨b', hb, bs, hbs, h⟩ := h
      cases Except.ok.inj h
      simp only [List.mem_cons, exists_eq_or_imp]
      exact or_congr ⟨fun h => h ▸ hb, fun h => (Except.ok.inj (hb.symm.trans h)).symm⟩
        (mem_of_mapM hbs)

/-- A `mapM` into `Except` of a list without duplicates, on which `f` gives no result twice,
gives a list without duplicates. -/
theorem nodup_of_mapM : ∀ {l : List α} {l' : List β}, l.mapM f = .ok l' → l.Nodup →
    (∀ a ∈ l, ∀ a' ∈ l, ∀ b, f a = .ok b → f a' = .ok b → a = a') → l'.Nodup
  | [], _, h, _, _ => by
      cases Except.ok.inj h
      exact List.nodup_nil
  | a :: l, l', h, hn, hinj => by
      simp only [List.mapM_cons, Except.bind_eq_ok] at h
      obtain ⟨b, hb, bs, hbs, h⟩ := h
      cases Except.ok.inj h
      have hn' := List.nodup_cons.1 hn
      refine List.nodup_cons.2 ⟨fun hm => ?_, nodup_of_mapM hbs hn'.2 fun x hx y hy =>
        hinj x (.tail _ hx) y (.tail _ hy)⟩
      obtain ⟨a', ha', hfa'⟩ := (mem_of_mapM hbs).1 hm
      exact hn'.1 (hinj a (List.mem_cons_self _ _) a' (.tail _ ha') b hb hfa' ▸ ha')

end MapM

theorem map_eq_of_forall₂ {α β γ : Type} {f : α → γ} {g : β → γ} :
    ∀ {l₁ : List α} {l₂ : List β}, List.Forall₂ (fun a b => f a = g b) l₁ l₂ → l₁.map f = l₂.map g
  | _, _, .nil => rfl
  | _, _, .cons h hs => by rw [List.map_cons, List.map_cons, h, map_eq_of_forall₂ hs]

/-! ## `AllPendingTxs` -/

/-- `DB.AllPendingTxs`: the rows of `txs` the best block has not included, in table order,
each read back with `json.Unmarshal` and `UpdateHash`; `none` is the nil slice. -/
def DB.allPendingTxs (C : Crypto) (S : Store) : Except Err (Option (List SignedTx)) := do
  let tip ← bestBlockHash S
  let stxs ← (S.pendingRows tip).mapM fun r => decodeSignedTx C r.tx
  pure (if stxs = [] then none else some stxs)

namespace Store

variable {C : Crypto} {S : Store}

/-- The rows of `txs` of a reachable store read back as the hashed transactions they hold. -/
theorem Inv.mapM_decodeSignedTx (hI : S.Inv C) :
    ∀ rows : List TxRow, (∀ r ∈ rows, r ∈ S.txs) →
      ∃ l, rows.mapM (fun r => decodeSignedTx C r.tx) = .ok l ∧ l.map SignedTx.row = rows ∧
        ∀ s ∈ l, s.updateHash C = s
  | [], _ => ⟨[], rfl, rfl, fun _ h => (by cases h)⟩
  | r :: rows, hr => by
      obtain ⟨s, hs, rfl, hdec⟩ := hI.decode_txRow (hr r (List.mem_cons_self _ _))
      obtain ⟨l, hl, hmap, hh⟩ := hI.mapM_decodeSignedTx rows fun x hx => hr x (.tail _ hx)
      refine ⟨s :: l, ?_, by rw [List.map_cons, hmap], ?_⟩
      · rw [List.mapM_cons, hdec, Except.ok_bind, hl, Except.ok_bind]
        rfl
      · intro x hx
        rcases List.mem_cons.1 hx with rfl | hx
        · exact hs
        · exact hh x hx

/-- The best block of a reachable store ends a stored chain; `BestBlock` decodes it and
`bestBlockHash` gives its hash, which is not `NULL`. -/
theorem Inv.best (hI : S.Inv C) (hne : S.blocks ≠ []) :
    ∃ chain T, S.StoredChain C (chain ++ [T]) ∧ S.bestRow = some T.row ∧
      DB.bestBlock C S = .ok T ∧ bestBlockHash S = .ok T.hash ∧ T.hash ≠ emptyHash := by
  obtain ⟨chain, T, hsc, hbest⟩ := hI.bestChain hne
  have hmem := hsc.stored T (by simp)
  refine ⟨chain, T, hsc, hbest, ?_, by simp [bestBlockHash, hbest], hI.wf.hash_ne _ hmem⟩
  rw [DB.bestBlock, hbest]
  exact decodeBlock_row (hsc.hashed T (by simp))

/-- At the best block, `SELECT 1 FROM included_txs` answers whether the best chain includes a
stored transaction. -/
theorem Inv.selectIncluded_best (hI : S.Inv C) {chain : List Block} {T : Block}
    (hsc : S.StoredChain C (chain ++ [T])) (hT : T.hash ≠ emptyHash) {t : TxRow}
    (ht : t ∈ S.txs) :
    S.selectIncluded T.hash t.hash = decide (t.hash ∈ (Ledger.ofChain (chain ++ [T])).inc) := by
  have hsel := selectIncluded_iff (S := S) hT (hI.wf.txs_ne t ht)
  rw [← ledgerAt_inc, hI.ledgerAt_eq hsc] at hsel
  exact Bool.eq_iff_iff.2 (hsel.trans decide_eq_true_iff.symm)

/-- At the best block, the pending rows are the rows whose hash the best chain has not
included. -/
theorem Inv.pendingRows_eq (hI : S.Inv C) {chain : List Block} {T : Block}
    (hsc : S.StoredChain C (chain ++ [T])) (hT : T.hash ≠ emptyHash) :
    S.pendingRows T.hash =
      S.txs.filter fun r => decide (r.hash ∉ (Ledger.ofChain (chain ++ [T])).inc) :=
  List.filter_congr fun r hr => by simp [hI.selectIncluded_best hsc hT hr]

/-- `AllPendingTxs` at the best block of a stored chain. -/
theorem Inv.allPendingTxs_spec (hI : S.Inv C) {chain : List Block} {T : Block}
    (hsc : S.StoredChain C (chain ++ [T])) (hbest : S.bestRow = some T.row)
    (hT : T.hash ≠ emptyHash) :
    ∃ L, DB.allPendingTxs C S = .ok L ∧ (∀ s ∈ L.getD [], s.updateHash C = s) ∧
      (L.getD []).map SignedTx.row =
        S.txs.filter fun r => decide (r.hash ∉ (Ledger.ofChain (chain ++ [T])).inc) := by
  obtain ⟨l, hl, hmap, hh⟩ := hI.mapM_decodeSignedTx (S.pendingRows T.hash)
    fun r hr => (List.mem_filter.1 hr).1
  refine ⟨if l = [] then none else some l, ?_, ?_, ?_⟩
  · simp only [DB.allPendingTxs, bestBlockHash, hbest, Block.row_hash, hl, Except.ok_bind]
    rfl
  · split_ifs
    · simp
    · exact hh
  · rw [← hI.pendingRows_eq hsc hT, ← hmap]
    split_ifs with h <;> simp [h]

/-- `BestBlock` and `bestBlockHash` read the same row. -/
theorem Inv.bestBlockHash_of_bestBlock (hI : S.Inv C) {T : Block} (hT : DB.bestBlock C S = .ok T) :
    bestBlockHash S = .ok T.hash := by
  unfold DB.bestBlock at hT
  split at hT
  · next r hr =>
      obtain ⟨chain, b, rfl, hsc, -⟩ := hI.chains r (bestRow_mem hr)
      cases (decodeBlock_row (hsc.hashed b (by simp))).symm.trans hT
      simp [bestBlockHash, hr]
  · cases hT

end Store

/-- The loop of `PendingTxs` picks among the rows it meets, in their order. -/
theorem pendingLoop_sublist {C : Crypto} (limit : Int) :
    ∀ (rows : List TxRow) (D : List SignedTx) {acc acc' : Store × List TempRow × List SignedTx},
      rows.mapM (fun r => decodeSignedTx C r.tx) = .ok D →
      pendingLoop C limit rows acc = .ok acc' → ∃ l, acc'.2.2 = acc.2.2 ++ l ∧ l.Sublist D
  | [], D, _, _, hD, hc => by
      cases Except.ok.inj hc
      cases Except.ok.inj hD
      exact ⟨[], by simp, .slnil⟩
  | r :: rows, D, (S, temp, picked), acc', hD, hc => by
      simp only [List.mapM_cons, Except.bind_eq_ok] at hD
      obtain ⟨s, hs, D', hD', hret⟩ := hD
      cases Except.ok.inj hret
      obtain ⟨stx, hd, ⟨-, -, -, hc⟩ | ⟨-, -, hc⟩⟩ := pendingLoop_cons_ok hc <;>
        obtain rfl : s = stx := Except.ok.inj (hs.symm.trans hd) <;>
        obtain ⟨l, he, hl⟩ := pendingLoop_sublist limit rows D' hD' hc
      · exact ⟨l, he, hl.cons s⟩
      · exact ⟨s :: l, by simp [he], hl.cons₂ s⟩

open Store

variable {C : Crypto} {S : Store}

/-- On every reachable store, `AllPendingTxs` returns, in table order, exactly the stored
transactions that the best chain has not included, each with its hash. -/
theorem allPendingTxs_not_in_best_chain (hS : Reachable C S)
    (hG : (genesisBlock C).hash ≠ emptyHash) :
    ∃ chain T, S.StoredChain C (chain ++ [T]) ∧ DB.bestBlock C S = .ok T ∧
      ∃ L, DB.allPendingTxs C S = .ok L ∧ (∀ s ∈ L.getD [], s.updateHash C = s) ∧
        (L.getD []).map SignedTx.row =
          S.txs.filter fun r => decide (r.hash ∉ (Ledger.ofChain (chain ++ [T])).inc) := by
  have hI := hS.inv
  obtain ⟨chain, T, hsc, hbest, hbb, -, hT⟩ := hI.best (List.ne_nil_of_mem (hS.genesis_mem hG))
  exact ⟨chain, T, hsc, hbb, hI.allPendingTxs_spec hsc hbest hT⟩

open LongChain in
theorem allPendingTxs_not_in_best_chain_pendingStore : Reachable C₀ pendingStore ∧
    (genesisBlock C₀).hash ≠ emptyHash ∧
    ∃ chain T, pendingStore.StoredChain C₀ (chain ++ [T]) ∧ DB.bestBlock C₀ pendingStore = .ok T ∧
      ∃ L, DB.allPendingTxs C₀ pendingStore = .ok L ∧ (∀ s ∈ L.getD [], s.updateHash C₀ = s) ∧
        (L.getD []).map SignedTx.row = pendingStore.txs.filter
          fun r => decide (r.hash ∉ (Ledger.ofChain (chain ++ [T])).inc) :=
  ⟨pendingStore_reachable, genesis_hash_ne,
    allPendingTxs_not_in_best_chain pendingStore_reachable genesis_hash_ne⟩

namespace LongChain

/-- `pendingStore` serves `pendingTx` as pending. -/
theorem pendingStore_allPendingTxs : DB.allPendingTxs C₀ pendingStore = .ok (some [pendingTx]) := by
  have htip : bestBlockHash pendingStore = .ok spendBlock.hash := by
    simp only [bestBlockHash, pendingStore_bestRow]
    rfl
  simp only [DB.allPendingTxs, htip, pendingStore_pendingRows, Except.ok_bind, List.mapM_cons,
    List.mapM_nil, decodeSignedTx_row pendingTx_hashed]
  rfl

end LongChain

/-- On every reachable store, the transactions `PendingTxs` picks on the best block are among
those `AllPendingTxs` lists, in the same order: the miner's choice is a subsequence of what
the node serves to its peers. -/
theorem pendingTxs_sublist_allPendingTxs (hS : Reachable C S) {T : Block}
    (hT : DB.bestBlock C S = .ok T) {limit : Int} {S' : Store} {L' L : Option (List SignedTx)}
    (hp : DB.pendingTxs C T.hash limit S = .ok (S', L')) (ha : DB.allPendingTxs C S = .ok L) :
    (L'.getD []).Sublist (L.getD []) := by
  have htip := hS.inv.bestBlockHash_of_bestBlock hT
  simp only [DB.allPendingTxs, htip, Except.ok_bind, Except.bind_eq_ok] at ha
  obtain ⟨D, hD, hret⟩ := ha
  cases Except.ok.inj hret
  simp only [DB.pendingTxs, Except.bind_eq_ok] at hp
  obtain ⟨temp, -, acc, hl, hret'⟩ := hp
  cases Except.ok.inj hret'
  obtain ⟨l, he, hsub⟩ := pendingLoop_sublist limit _ D hD hl
  simp only [List.nil_append] at he
  rw [he]
  split_ifs <;> simp_all

open LongChain in
/-- The miner's pick on `pendingStore` is what the node serves as pending. -/
theorem pendingTxs_sublist_allPendingTxs_pendingStore : Reachable C₀ pendingStore ∧
    DB.bestBlock C₀ pendingStore = .ok spendBlock ∧
    DB.pendingTxs C₀ spendBlock.hash 10 pendingStore = .ok (pendingStore, some [pendingTx]) ∧
    DB.allPendingTxs C₀ pendingStore = .ok (some [pendingTx]) ∧ [pendingTx].Sublist [pendingTx] :=
  ⟨pendingStore_reachable, pendingStore_bestBlock, pendingStore_pendingTxs, pendingStore_allPendingTxs,
    pendingTxs_sublist_allPendingTxs pendingStore_reachable pendingStore_bestBlock
      pendingStore_pendingTxs pendingStore_allPendingTxs⟩

/-! ## `Addresses` -/

/-- `AddressState`: an address of the node, its PKCS#1 public key and its balance. -/
structure AddressState where
  address : List UInt8
  publicKey : List UInt8
  balance : Int
deriving DecidableEq

/-- One row of the query of `DB.Addresses`: `COALESCE(b.balance, 0)` from the balance row of the
key's address at block `tip`, and the key decoded by `DecodePrivateKeyPEM`. -/
def Store.addressState (C : Crypto) (decodePEM : List UInt8 → Except Err PrivateKey) (S : Store)
    (tip : Hash) (k : KeyRow) : Except Err AddressState := do
  let balance ← S.selectBalance tip k.address
  let key ← decodePEM k.privateKey
  pure ⟨k.address, C.marshalPKCS1PublicKey key.publicKey, balance⟩

/-- `DB.Addresses`: every row of `keys` in table order, with the balances of the highest block;
on a table without blocks the subquery is `NULL`, which matches no balance row. -/
def DB.addresses (C : Crypto) (decodePEM : List UInt8 → Except Err PrivateKey) (W : Wallet)
    (S : Store) : Except Err (Option (List AddressState)) := do
  let tip := match S.bestRow with
    | some r => r.hash
    | none => emptyHash
  let addrs ← W.keys.mapM (S.addressState C decodePEM tip)
  pure (if addrs = [] then none else some addrs)

theorem Store.addressState_eq_ok {decodePEM : List UInt8 → Except Err PrivateKey} {tip : Hash}
    (htip : tip ≠ emptyHash) {k : KeyRow} {s : AddressState} :
    S.addressState C decodePEM tip k = .ok s ↔ Int64.InRange (S.balanceAt tip k.address) ∧
      ∃ key, decodePEM k.privateKey = .ok key ∧
        s = ⟨k.address, C.marshalPKCS1PublicKey key.publicKey, S.balanceAt tip k.address⟩ := by
  rw [addressState, selectBalance_eq htip]
  split_ifs with h
  · cases decodePEM k.privateKey <;> simp [h, eq_comm]
  · simp [h]

namespace LongChain

/-- The wallet of a node that stored `unitKey` at its `v1` address when it first opened its
database, then added it at its `v2` address, which under `C₀` is `miner`. -/
def minerWallet : Wallet :=
  (WalletOp.addKey .v2 unitKey).run C₀ unaryPEM ((⟨[], []⟩ : Wallet).migrate C₀ unaryPEM unitKey)

theorem minerWallet_reachable : WalletReachable C₀ unaryPEM minerWallet := .step _ (.init unitKey)

end LongChain

section Addresses

variable {encodePEM : PrivateKey → List UInt8} {decodePEM : List UInt8 → Except Err PrivateKey}
  {W : Wallet}

/-- On every reachable store and wallet, `Addresses` lists one entry per row of `keys`, in table
order, each with the key's public half and the balance the ledger of the best chain gives its
address; it never returns the nil slice, and it succeeds when every stored key decodes and
every such balance fits in `int64`. -/
theorem addresses_best_chain_balances (hS : Reachable C S) (hG : (genesisBlock C).hash ≠ emptyHash)
    (hW : WalletReachable C encodePEM W) :
    ∃ chain T, S.StoredChain C (chain ++ [T]) ∧ DB.bestBlock C S = .ok T ∧
      (∀ L, DB.addresses C decodePEM W S = .ok L → ∃ l, L = some l ∧
        (l.map AddressState.address).Nodup ∧
        List.Forall₂ (fun s k => s.address = k.address ∧
          s.balance = (Ledger.ofChain (chain ++ [T])).bal k.address ∧
          ∃ key, decodePEM k.privateKey = .ok key ∧
            s.publicKey = C.marshalPKCS1PublicKey key.publicKey) l W.keys) ∧
      ((∀ k ∈ W.keys, (∃ key, decodePEM k.privateKey = .ok key) ∧
          Int64.InRange ((Ledger.ofChain (chain ++ [T])).bal k.address)) →
        ∃ L, DB.addresses C decodePEM W S = .ok L) := by
  have hI := hS.inv
  obtain ⟨chain, T, hsc, hbest, hbb, -, hT⟩ := hI.best (List.ne_nil_of_mem (hS.genesis_mem hG))
  have hbal : ∀ a, S.balanceAt T.hash a = (Ledger.ofChain (chain ++ [T])).bal a := fun a => by
    rw [← ledgerAt_bal, hI.ledgerAt_eq hsc]
  have hrun : DB.addresses C decodePEM W S = (W.keys.mapM (S.addressState C decodePEM T.hash)) >>=
      fun addrs => pure (if addrs = [] then none else some addrs) := by
    simp only [DB.addresses, hbest, Block.row_hash]
  refine ⟨chain, T, hsc, hbb, fun L hL => ?_, fun hk => ?_⟩
  · rw [hrun, Except.bind_eq_ok] at hL
    obtain ⟨l, hl, hret⟩ := hL
    cases Except.ok.inj hret
    have hrel := mapM_forall₂ hl
    have haddr : l.map AddressState.address = W.keys.map KeyRow.address :=
      map_eq_of_forall₂ (hrel.imp fun s k h => by
        obtain ⟨-, key, -, rfl⟩ := (addressState_eq_ok hT).1 h
        rfl)
    have hne : l ≠ [] := fun h => hW.inv.keys_ne (by simpa [h] using haddr.symm)
    refine ⟨l, if_neg hne, haddr ▸ hW.inv.addresses_nodup, hrel.imp fun s k h => ?_⟩
    obtain ⟨-, key, hkey, rfl⟩ := (addressState_eq_ok hT).1 h
    exact ⟨rfl, hbal _, key, hkey, rfl⟩
  · have hok : ∀ k ∈ W.keys, ∃ s, S.addressState C decodePEM T.hash k = .ok s := fun k hk' => by
      obtain ⟨⟨key, hkey⟩, hr⟩ := hk k hk'
      exact ⟨_, (addressState_eq_ok hT).2 ⟨(hbal _).symm ▸ hr, key, hkey, rfl⟩⟩
    obtain ⟨l, hl⟩ := mapM_ok_of_forall hok
    exact ⟨if l = [] then none else some l, by rw [hrun, hl]; rfl⟩

open LongChain in
theorem addresses_best_chain_balances_minerWallet : Reachable C₀ pendingStore ∧
    (genesisBlock C₀).hash ≠ emptyHash ∧ WalletReachable C₀ unaryPEM minerWallet ∧
    ∃ chain T, pendingStore.StoredChain C₀ (chain ++ [T]) ∧ DB.bestBlock C₀ pendingStore = .ok T ∧
      (∀ L, DB.addresses C₀ unaryPEMDecode minerWallet pendingStore = .ok L →
        ∃ l, L = some l ∧ (l.map AddressState.address).Nodup ∧
        List.Forall₂ (fun s k => s.address = k.address ∧
          s.balance = (Ledger.ofChain (chain ++ [T])).bal k.address ∧
          ∃ key, unaryPEMDecode k.privateKey = .ok key ∧
            s.publicKey = C₀.marshalPKCS1PublicKey key.publicKey) l minerWallet.keys) ∧
      ((∀ k ∈ minerWallet.keys, (∃ key, unaryPEMDecode k.privateKey = .ok key) ∧
          Int64.InRange ((Ledger.ofChain (chain ++ [T])).bal k.address)) →
        ∃ L, DB.addresses C₀ unaryPEMDecode minerWallet pendingStore = .ok L) :=
  ⟨pendingStore_reachable, genesis_hash_ne, minerWallet_reachable,
    addresses_best_chain_balances pendingStore_reachable genesis_hash_ne minerWallet_reachable⟩

end Addresses

end Cryptopuff
