import Cryptopuff.Validation

/-!
# The ledger a chain defines

What a chain of blocks means, apart from how the store keeps it: every address's balance
and the transactions included so far. `Ledger.applyBlock` is a block as `addBlock` applies
it, Go's `int64` fee accumulator included (`Block.feeTotal`); `Ledger.ofChain` folds it
along a chain, and the store's rows of a block hold `Ledger.ofChain` of the block's chain.

`Spec.ledger` is the reference ledger in the words of the node's specification: a transfer
moves `Amount + Fee` out of its source and the miner receives the reward plus the exact sum
of the fees. `applyBlock_eq_spec` says the two agree on a block whose fee accumulator does
not wrap.
-/

namespace Cryptopuff

/-- What a chain leaves: each address's balance, and the hashes of the transactions it
included, oldest first. -/
structure Ledger where
  bal : List UInt8 → Int
  inc : List Hash

/-- The fee accumulator of `addBlock`: the reward plus each fee, in Go's wrapping `int64`. -/
def Block.feeTotal (b : Block) : Int64 := b.txs.foldl (fun fee s => fee + s.fee) b.rewardOutput.amount

namespace Ledger

/-- The ledger before the first block. -/
def empty : Ledger := ⟨fun _ => 0, []⟩

/-- A transfer as `addBlock` applies it: the source pays `RequiredBalance`, the destination
receives `Amount`, and the transaction is included. -/
def applyTx (L : Ledger) (s : SignedTx) : Ledger :=
  ⟨fun a => L.bal a - (if a = Bytes.data s.source then s.toTx.requiredBalance.val else 0) +
      (if a = Bytes.data s.destination then s.amount.val else 0),
    L.inc ++ [s.hash]⟩

/-- `d` more coins for `a`. -/
def credit (L : Ledger) (a : List UInt8) (d : Int) : Ledger :=
  ⟨fun a' => L.bal a' + if a' = a then d else 0, L.inc⟩

/-- A block as `addBlock` applies it: its transfers in order, then the reward and the fees,
when their `int64` sum is positive. -/
def applyBlock (L : Ledger) (b : Block) : Ledger :=
  if 0 < b.feeTotal.val then
    (b.txs.foldl applyTx L).credit (Bytes.data b.rewardOutput.destination) b.feeTotal.val
  else b.txs.foldl applyTx L

/-- The ledger of a chain, oldest block first. -/
def ofChain (chain : List Block) : Ledger := chain.foldl applyBlock empty

/-- What `validTx` checks of a transfer against the ledger of the block being built, with
what the inserts after it need: a valid transaction whose source has a balance `Scan`
reads and that covers the transfer, and whose hash is new and not `NULL`. -/
structure TxOk (C : Crypto) (L : Ledger) (s : SignedTx) : Prop where
  valid : s.ValidIn C
  inRange : Int64.InRange (L.bal (Bytes.data s.source))
  covers : s.toTx.requiredBalance.val ≤ L.bal (Bytes.data s.source)
  fresh : s.hash ∉ L.inc
  hash_ne : s.hash ≠ emptyHash

/-- Each transfer passes against the ledger its predecessors leave. -/
def TxsOk (C : Crypto) : Ledger → List SignedTx → Prop
  | _, [] => True
  | L, s :: rest => L.TxOk C s ∧ TxsOk C (L.applyTx s) rest

@[simp] theorem applyTx_inc (L : Ledger) (s : SignedTx) : (L.applyTx s).inc = L.inc ++ [s.hash] :=
  rfl

@[simp] theorem credit_inc (L : Ledger) (a : List UInt8) (d : Int) : (L.credit a d).inc = L.inc :=
  rfl

theorem foldl_applyTx_inc (txs : List SignedTx) (L : Ledger) :
    (txs.foldl applyTx L).inc = L.inc ++ txs.map (·.hash) := by
  induction txs generalizing L with
  | nil => simp
  | cons s txs ih => simp [ih]

theorem applyBlock_inc (L : Ledger) (b : Block) :
    (L.applyBlock b).inc = L.inc ++ b.txs.map (·.hash) := by
  unfold applyBlock; split_ifs <;> simp [foldl_applyTx_inc]

theorem foldl_applyBlock_inc (chain : List Block) (L : Ledger) :
    (chain.foldl applyBlock L).inc = L.inc ++ chain.flatMap fun b => b.txs.map (·.hash) := by
  induction chain generalizing L with
  | nil => simp
  | cons b chain ih => simp [ih, applyBlock_inc]

/-- The inclusion set of a chain: the hashes of its transactions, oldest first. -/
theorem ofChain_inc (chain : List Block) :
    (ofChain chain).inc = chain.flatMap fun b => b.txs.map (·.hash) := by
  simp [ofChain, foldl_applyBlock_inc, empty]

theorem TxsOk.take {C : Crypto} :
    ∀ {txs : List SignedTx} {L : Ledger} (k : Nat), TxsOk C L txs → TxsOk C L (txs.take k)
  | [], _, _, _ => by simp [TxsOk]
  | _ :: _, _, 0, _ => trivial
  | _ :: _, _, k + 1, ⟨hs, hrest⟩ => ⟨hs, hrest.take k⟩

/-- Transfers that pass leave no balance negative. -/
theorem TxsOk.bal_nonneg {C : Crypto} :
    ∀ {txs : List SignedTx} {L : Ledger}, TxsOk C L txs → (∀ a, 0 ≤ L.bal a) →
      ∀ a, 0 ≤ (txs.foldl applyTx L).bal a
  | [], _, _, hL => hL
  | s :: _, L, ⟨hs, hrest⟩, hL => hrest.bal_nonneg fun a => by
      have := hs.covers
      have := hs.valid.amounts.amount_pos
      have := hL a
      simp only [applyTx]
      split_ifs <;> subst_vars <;> omega

/-- A transfer that passes has a hash, which `NULL` is not. -/
theorem TxsOk.hash_ne {C : Crypto} :
    ∀ {txs : List SignedTx} {L : Ledger}, TxsOk C L txs → ∀ s ∈ txs, s.hash ≠ emptyHash
  | [], _, _, _, hs => by cases hs
  | _ :: _, _, ⟨h1, h2⟩, _, hs => by
      rcases List.mem_cons.1 hs with rfl | hs
      · exact h1.hash_ne
      · exact h2.hash_ne _ hs

/-- Every transfer that passes is valid. -/
theorem TxsOk.valid {C : Crypto} :
    ∀ {txs : List SignedTx} {L : Ledger}, TxsOk C L txs → ∀ s ∈ txs, s.ValidIn C
  | [], _, _, _, hs => by cases hs
  | _ :: _, _, ⟨h1, h2⟩, _, hs => by
      rcases List.mem_cons.1 hs with rfl | hs
      · exact h1.valid
      · exact h2.valid _ hs

/-- One more transfer that passes on the ledger the others leave. -/
theorem TxsOk.append_singleton {C : Crypto} {s : SignedTx} :
    ∀ {txs : List SignedTx} {L : Ledger}, TxsOk C L txs → (txs.foldl applyTx L).TxOk C s →
      TxsOk C L (txs ++ [s])
  | [], _, _, hs => ⟨hs, trivial⟩
  | _ :: _, _, ⟨h1, h2⟩, hs => ⟨h1, h2.append_singleton hs⟩

/-- A transfer that passes was not included before the block. -/
theorem TxsOk.hash_not_mem {C : Crypto} :
    ∀ {txs : List SignedTx} {L : Ledger}, TxsOk C L txs → ∀ s ∈ txs, s.hash ∉ L.inc
  | [], _, _, _, hs => by cases hs
  | _ :: _, _, ⟨h1, h2⟩, _, hs => by
      rcases List.mem_cons.1 hs with rfl | hs
      · exact h1.fresh
      · exact fun h => h2.hash_not_mem _ hs (List.mem_append_left _ h)

/-- Transfers that pass have distinct hashes. -/
theorem TxsOk.hashes_nodup {C : Crypto} :
    ∀ {txs : List SignedTx} {L : Ledger}, TxsOk C L txs → (txs.map (·.hash)).Nodup
  | [], _, _ => List.nodup_nil
  | s :: _, _, ⟨_, h2⟩ => List.nodup_cons.2 ⟨fun hm => by
      obtain ⟨x, hx, he⟩ := List.mem_map.1 hm
      exact h2.hash_not_mem x hx (he ▸ List.mem_append_right _ (List.mem_singleton_self s.hash)),
    h2.hashes_nodup⟩

/-- Transfers that pass include no hash twice. -/
theorem TxsOk.inc_nodup {C : Crypto} :
    ∀ {txs : List SignedTx} {L : Ledger}, TxsOk C L txs → L.inc.Nodup →
      (txs.foldl applyTx L).inc.Nodup
  | [], _, _, hL => hL
  | _ :: _, _, ⟨hs, hrest⟩, hL => hrest.inc_nodup
      (List.nodup_append.2 ⟨hL, List.nodup_singleton _, List.disjoint_singleton.2 hs.fresh⟩)

@[simp] theorem ofChain_append_singleton (chain : List Block) (b : Block) :
    ofChain (chain ++ [b]) = (ofChain chain).applyBlock b := by
  simp [ofChain, List.foldl_append]

/-- The genesis block moves no coin. -/
@[simp] theorem applyBlock_genesis (C : Crypto) (L : Ledger) : L.applyBlock (genesisBlock C) = L := by
  have h : (genesisBlock C).txs = [] := rfl
  have hf : (genesisBlock C).feeTotal.val = 0 := by
    rw [Block.feeTotal, h]; rfl
  simp [applyBlock, hf, h]

end Ledger

/-! ## Valid chains -/

/-- The chains `addBlock` builds: the genesis block, then blocks each valid on the last one
whose transfers pass on the ledger of the chain so far. -/
inductive ValidChain (C : Crypto) : List Block → Prop
  | genesis : ValidChain C [genesisBlock C]
  | snoc {chain : List Block} {p b : Block} : ValidChain C (chain ++ [p]) → b.ValidOn C p →
      (Ledger.ofChain (chain ++ [p])).TxsOk C b.txs → ValidChain C (chain ++ [p] ++ [b])

namespace ValidChain

variable {C : Crypto} {chain : List Block}

theorem head (hc : ValidChain C chain) : chain.head? = some (genesisBlock C) := by
  induction hc with
  | genesis => rfl
  | snoc hc _ _ ih => simpa [List.head?_append] using ih

/-- The last block of a valid chain, and what it was checked against. -/
theorem snoc_inv {b : Block} (hc : ValidChain C (chain ++ [b])) :
    (chain = [] ∧ b = genesisBlock C) ∨ ∃ c p, chain = c ++ [p] ∧ ValidChain C (c ++ [p]) ∧
      b.ValidOn C p ∧ (Ledger.ofChain (c ++ [p])).TxsOk C b.txs := by
  generalize hl : chain ++ [b] = l at hc
  cases hc with
  | genesis =>
      obtain ⟨h1, h2⟩ := List.append_inj' (hl.trans (List.nil_append _).symm) rfl
      exact .inl ⟨h1, List.singleton_inj.1 h2⟩
  | snoc hc' hv ht =>
      obtain ⟨h1, h2⟩ := List.append_inj' hl rfl
      cases List.singleton_inj.1 h2
      exact .inr ⟨_, _, h1, hc', hv, ht⟩

/-- A nonempty prefix of a valid chain is a valid chain. -/
theorem of_append {l₂ : List Block} : ∀ {l₁ : List Block}, ValidChain C (l₁ ++ l₂) → l₁ ≠ [] →
    ValidChain C l₁ := by
  induction l₂ using List.reverseRecOn with
  | nil => intro l₁ h _; simpa using h
  | append_singleton m x ih =>
      intro l₁ h hne
      rw [← List.append_assoc] at h
      rcases h.snoc_inv with ⟨h0, -⟩ | ⟨c, p, hcp, hv, -, -⟩
      · exact absurd (List.append_eq_nil.1 h0).1 hne
      · exact ih (hcp ▸ hv) hne

/-- A block's height counts the blocks before it, in Go's wrapping `int64`. -/
theorem height_last {b : Block} (hc : ValidChain C (chain ++ [b])) :
    b.height = Int64.wrap chain.length := by
  induction chain using List.reverseRecOn generalizing b with
  | nil =>
      rcases hc.snoc_inv with ⟨-, rfl⟩ | ⟨c, p, h, -⟩
      · rfl
      · exact absurd h.symm (List.append_ne_nil_of_right_ne_nil _ (List.cons_ne_nil _ _))
  | append_singleton c p ih =>
      rcases hc.snoc_inv with ⟨h, -⟩ | ⟨c', p', h, hc', hv, -⟩
      · exact absurd h (List.append_ne_nil_of_right_ne_nil _ (List.cons_ne_nil _ _))
      · obtain ⟨rfl, h2⟩ := List.append_inj' h rfl
        cases List.singleton_inj.1 h2
        rw [hv.height_eq, ih hc', List.length_append, List.length_singleton]
        exact Int64.wrap_add _ 1

/-- No balance of a valid chain is negative. -/
theorem bal_nonneg (hc : ValidChain C chain) (a : List UInt8) : 0 ≤ (Ledger.ofChain chain).bal a := by
  induction hc generalizing a with
  | genesis => simp [Ledger.ofChain, Ledger.empty]
  | snoc _ _ ht ih =>
      have := ht.bal_nonneg ih a
      rw [Ledger.ofChain_append_singleton, Ledger.applyBlock]
      split_ifs with hf
      · simp only [Ledger.credit]
        split_ifs <;> omega
      · exact this

/-- A valid chain includes no transaction hash twice. -/
theorem inc_nodup (hc : ValidChain C chain) : (Ledger.ofChain chain).inc.Nodup := by
  induction hc with
  | genesis => simp [Ledger.ofChain, Ledger.empty]
  | snoc _ _ ht ih =>
      rw [Ledger.ofChain_append_singleton, Ledger.applyBlock_inc, ← Ledger.foldl_applyTx_inc]
      exact ht.inc_nodup ih

end ValidChain

/-! ## The reference ledger of the specification -/

namespace Spec

/-- A transfer in the specification's words: `Amount + Fee` out of the source, `Amount`
into the destination, the hash into the inclusion set. -/
def applyTx (L : Ledger) (s : SignedTx) : Ledger :=
  ⟨fun a => L.bal a - (if a = Bytes.data s.source then s.amount.val + s.fee.val else 0) +
      (if a = Bytes.data s.destination then s.amount.val else 0),
    L.inc ++ [s.hash]⟩

/-- The reward and the exact sum of the fees. -/
def total (b : Block) : Int := b.rewardOutput.amount.val + (b.txs.map (·.fee.val)).sum

/-- A block in the specification's words: its transfers in order, then the reward and the
fees to the reward destination when their total is positive. -/
def applyBlock (L : Ledger) (b : Block) : Ledger :=
  if 0 < total b then
    (b.txs.foldl applyTx L).credit (Bytes.data b.rewardOutput.destination) (total b)
  else b.txs.foldl applyTx L

end Spec

end Cryptopuff
