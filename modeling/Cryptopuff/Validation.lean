import Cryptopuff.Codec.Wire

/-!
# Hashes, signatures and block validity

`Block.UpdateHash`, `SignedTx.UpdateHash`, `SignedTx.ValidSignature`, `SignedTx.Valid` and
`Block.Valid`, with the constructors `NewBlock` and `DecodeBlock` and the genesis block.

A transaction's hash is the MD5 of its JSON, which leaves `Hash` out but covers the random
`ID`; the signature covers only the embedded `Tx`, so `ID` is not signed. A block's hash
digests its header and the MD5 of its transactions' JSON. Neither depends on a `Hash` field,
which is what `Block.updateHash_clearHashes` says and what makes `decodeBlock_marshal`, the
hash half of the store's round trip, hold.

`Block.valid_eq_ok` states everything `Block.Valid` checks as one structure, `Block.ValidOn`,
which the store invariants use without unfolding the checks again.
-/

namespace Cryptopuff

/-! ## Hashes -/

/-- `Version`: how much of the key's digest an address keeps. -/
inductive Version where
  | v1
  | v2
deriving DecidableEq

/-- `AddressFromKey`: the first two bytes (V1) or all sixteen (V2) of the MD5 digest of the
PKCS#1 encoding of the key. -/
def addressFromKey (C : Crypto) (v : Version) (k : PublicKey) : Address :=
  match v with
  | .v1 => some ((C.md5 (C.marshalPKCS1PublicKey k)).bytes.take 2)
  | .v2 => some (C.md5 (C.marshalPKCS1PublicKey k)).bytes

/-- `SignedTx.UpdateHash`: the MD5 digest of the transaction's JSON. -/
def SignedTx.updateHash (C : Crypto) (s : SignedTx) : SignedTx :=
  { s with hash := C.md5 (utf8 s.marshal) }

/-- What `Block.UpdateHash` digests: the parent's hash, the height and the nonce, the
reward destination preceded by its length, the reward amount, and the MD5 of
`json.Marshal(b.Transactions)`. -/
def Block.header (C : Crypto) (b : Block) : List UInt8 :=
  b.previousHash.bytes ++ be64 b.height ++ be64 b.nonce ++
    be64 (Int64.wrap (Bytes.data b.rewardOutput.destination).length) ++
    Bytes.data b.rewardOutput.destination ++ be64 b.rewardOutput.amount ++
    (C.md5 (utf8 (Json.render (SignedTx.listToJson b.transactions)))).bytes

/-- `Block.UpdateHash`: the block's hash, then each transaction's. -/
def Block.updateHash (C : Crypto) (b : Block) : Block :=
  { b with
    hash := C.md5 (b.header C)
    transactions := b.transactions.map (List.map (SignedTx.updateHash C)) }

/-- `NewBlock`: a block on `previous` paying `blockReward` to `addr`. -/
def newBlock (C : Crypto) (previous : Block) (nonce : Int64) (addr : Address)
    (blockReward : Int64) (stxs : Option (List SignedTx)) : Block :=
  Block.updateHash C
    { hash := emptyHash, previousHash := previous.hash, height := previous.height + 1,
      nonce := nonce, rewardOutput := ⟨addr, blockReward⟩, transactions := stxs }

/-- `GenesisBlock`: the zero block with nonce 39611433, hashed at start-up. -/
def genesisBlock (C : Crypto) : Block := Block.updateHash C { Block.zero with nonce := 39611433 }

/-- `DecodeBlock`: a stored or received block, with its hashes recomputed. -/
def decodeBlock (C : Crypto) (text : List Char) : Except Err Block :=
  match Block.unmarshal text with
  | .ok b => .ok (b.updateHash C)
  | .error e => .error (.decode ("cryptopuff: failed to unmarshal block: " ++ e))

@[simp] theorem SignedTx.toJson_hash (s : SignedTx) (h : Hash) :
    SignedTx.toJson { s with hash := h } = s.toJson := rfl

@[simp] theorem SignedTx.updateHash_hash (C : Crypto) (s : SignedTx) (h : Hash) :
    SignedTx.updateHash C { s with hash := h } = s.updateHash C := rfl

@[simp] theorem SignedTx.updateHash_idem (C : Crypto) (s : SignedTx) :
    (s.updateHash C).updateHash C = s.updateHash C := rfl

@[simp] theorem SignedTx.updateHash_clearHash (C : Crypto) (s : SignedTx) :
    s.clearHash.updateHash C = s.updateHash C := rfl

@[simp] theorem SignedTx.listToJson_map_clearHash (l : Option (List SignedTx)) :
    SignedTx.listToJson (l.map (List.map SignedTx.clearHash)) = SignedTx.listToJson l := by
  cases l <;> simp [SignedTx.listToJson, sliceToJson, SignedTx.clearHash, Function.comp_def]

@[simp] theorem SignedTx.listToJson_map_updateHash (C : Crypto) (l : Option (List SignedTx)) :
    SignedTx.listToJson (l.map (List.map (SignedTx.updateHash C))) = SignedTx.listToJson l := by
  cases l <;> simp [SignedTx.listToJson, sliceToJson, SignedTx.updateHash, Function.comp_def]

/-- `UpdateHash` reads no `Hash` field. -/
theorem Block.updateHash_clearHashes (C : Crypto) (b : Block) :
    b.clearHashes.updateHash C = b.updateHash C := by
  simp only [Block.updateHash, Block.clearHashes, Block.header,
    SignedTx.listToJson_map_clearHash, Option.map_map]
  congr 2
  cases b.transactions <;> simp [Function.comp_def]

theorem Block.updateHash_idem (C : Crypto) (b : Block) :
    (b.updateHash C).updateHash C = b.updateHash C := by
  simp only [Block.updateHash, Block.header, SignedTx.listToJson_map_updateHash, Option.map_map]
  congr 2
  cases b.transactions <;> simp [Function.comp_def]

@[simp] theorem Block.updateHash_previousHash (C : Crypto) (b : Block) :
    (b.updateHash C).previousHash = b.previousHash := rfl

@[simp] theorem Block.updateHash_height (C : Crypto) (b : Block) :
    (b.updateHash C).height = b.height := rfl

@[simp] theorem Block.updateHash_rewardOutput (C : Crypto) (b : Block) :
    (b.updateHash C).rewardOutput = b.rewardOutput := rfl

@[simp] theorem Block.txs_updateHash (C : Crypto) (b : Block) :
    (b.updateHash C).txs = b.txs.map (SignedTx.updateHash C) := by
  cases h : b.transactions <;> simp [Block.txs, Block.updateHash, h]

/-- The transactions of a hashed block are hashed. -/
theorem Block.txs_hashed {C : Crypto} {b : Block} (hb : b.updateHash C = b) :
    ∀ s ∈ b.txs, s.updateHash C = s := by
  intro s hs
  rw [← hb, Block.txs_updateHash] at hs
  obtain ⟨s', -, rfl⟩ := List.mem_map.1 hs
  rfl

/-- `DecodeBlock` of what `json.Marshal` wrote recomputes the hashes `UpdateHash` gives. -/
theorem decodeBlock_marshal (C : Crypto) (b : Block) :
    decodeBlock C b.marshal = .ok (b.updateHash C) := by
  rw [decodeBlock, Block.unmarshal_marshal]
  exact congrArg Except.ok (Block.updateHash_clearHashes C b)

/-! ## Validity -/

/-- `SignedTx.ValidSignature`: the key parses, the source is its V1 or V2 address, and the
signature verifies against the MD5 digest of the `Tx` JSON. -/
def SignedTx.validSignature (C : Crypto) (s : SignedTx) : Except String Unit :=
  match C.parsePKCS1PublicKey (Bytes.data s.publicKey) with
  | none => .error "cryptopuff: failed to parse public key"
  | some k =>
      if Bytes.data (addressFromKey C .v1 k) ≠ Bytes.data s.source ∧
          Bytes.data (addressFromKey C .v2 k) ≠ Bytes.data s.source then
        .error "cryptopuff: address doesn't match public key"
      else if C.verifyPSS k (C.md5 (utf8 (Json.render s.toTx.toJson))) (Bytes.data s.signature)
      then .ok ()
      else .error "cryptopuff: invalid signature"

/-- `SignedTx.Valid`: the amounts, then the signature. -/
def SignedTx.valid (C : Crypto) (s : SignedTx) : Except Err Unit :=
  match s.toTx.validAmounts with
  | .error e => .error (.invalidBlock "cryptopuff: invalid amounts" (some e))
  | .ok () =>
      match s.validSignature C with
      | .error e => .error (.invalidBlock "cryptopuff: invalid signature" (some e))
      | .ok () => .ok ()

/-- `Block.Valid(previous)`, its checks in the source's order; the first message prints the
parent's height where it announces the expected hash. -/
def Block.valid (C : Crypto) (b previous : Block) : Except Err Unit :=
  if b.previousHash ≠ previous.hash then
    .error (.invalidBlock ("cryptopuff: previous hash mismatch (expected " ++
      toString previous.height.val ++ ", got " ++ String.mk (Hex.encode b.previousHash.bytes) ++
      ")") none)
  else if b.height ≠ previous.height + 1 then
    .error (.invalidBlock ("cryptopuff: height mismatch (expected " ++
      toString (previous.height + 1).val ++ ", got " ++ toString b.height.val ++ ")") none)
  else if b.hash.valid = false then
    .error (.invalidBlock "cryptopuff: hash doesn't meet difficulty requirement" none)
  else if b.rewardOutput.amount.val < 0 ∨ maxBlockReward < b.rewardOutput.amount.val then
    .error (.invalidBlock "cryptopuff: reward amount negative or greater than maximum" none)
  else if maxTransactionsPerBlock < b.txs.length then
    .error (.invalidBlock "cryptopuff: number of transactions greater than maximum" none)
  else b.txs.forM (SignedTx.valid C)

/-- What `SignedTx.Valid` establishes. -/
structure SignedTx.ValidIn (C : Crypto) (s : SignedTx) : Prop where
  amounts : s.toTx.AmountsOk
  signature : s.validSignature C = .ok ()

/-- What `Block.Valid(previous)` establishes. -/
structure Block.ValidOn (C : Crypto) (b previous : Block) : Prop where
  previousHash_eq : b.previousHash = previous.hash
  height_eq : b.height = previous.height + 1
  hash_valid : b.hash.valid = true
  reward_nonneg : 0 ≤ b.rewardOutput.amount.val
  reward_le : b.rewardOutput.amount.val ≤ maxBlockReward
  length_le : b.txs.length ≤ maxTransactionsPerBlock
  txs_valid : ∀ s ∈ b.txs, s.ValidIn C

theorem SignedTx.valid_eq_ok {C : Crypto} {s : SignedTx} : s.valid C = .ok () ↔ s.ValidIn C := by
  unfold SignedTx.valid
  constructor
  · intro h
    split at h
    · cases h
    · next ha =>
        split at h
        · cases h
        · next hs => exact ⟨Tx.amountsOk_of_validAmounts ha, hs⟩
  · rintro ⟨ha, hs⟩
    have : s.toTx.validAmounts = .ok () := by
      simp [Tx.validAmounts, ha.fee_nonneg, ha.sum_inRange, not_lt.2 ha.fee_nonneg,
        not_le.2 ha.amount_pos]
    rw [this, hs]

theorem forM_eq_ok {α ε : Type} {f : α → Except ε Unit} :
    ∀ {l : List α}, l.forM f = .ok () ↔ ∀ a ∈ l, f a = .ok ()
  | [] => by simp [pure, Except.pure]
  | a :: l => by
      cases h : f a <;> simp [h, forM_eq_ok]

theorem Block.valid_eq_ok {C : Crypto} {b previous : Block} :
    b.valid C previous = .ok () ↔ b.ValidOn C previous := by
  unfold Block.valid
  constructor
  · intro h
    split_ifs at h with h1 h2 h3 h4 h5
    exact ⟨not_not.1 h1, not_not.1 h2, by simpa using h3, by omega, by omega, by omega,
      fun s hs => SignedTx.valid_eq_ok.1 (forM_eq_ok.1 h s hs)⟩
  · intro h
    have h4 : ¬(b.rewardOutput.amount.val < 0 ∨ maxBlockReward < b.rewardOutput.amount.val) := by
      have := h.reward_nonneg; have := h.reward_le; omega
    simp only [h.previousHash_eq, h.height_eq, h.hash_valid, h4, not_lt.2 h.length_le,
      ne_eq, not_true_eq_false, ite_false, Bool.true_eq_false]
    exact forM_eq_ok.2 fun s hs => SignedTx.valid_eq_ok.2 (h.txs_valid s hs)

end Cryptopuff
