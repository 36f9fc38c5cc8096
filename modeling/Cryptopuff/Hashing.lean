import Cryptopuff.Store.Ops

/-!
# What the hashes and the signatures cover

Two encodings feed the primitives. `Block.UpdateHash` digests `Block.header`: the parent's
hash and three `int64`s at fixed widths, the reward destination after its length, the reward
amount, and the digest of the transactions' JSON. `Block.header_injective` reads each field back
from the bytes: the length field fixes where the destination ends, so only the destination's
bytes escape it, and a nil destination and an empty one give one header
(`header_nil_destination`).

`Tx.Sign` signs the digest of `json.Marshal(t)` and `SignedTx.ValidSignature` verifies the
digest of `json.Marshal(s.Tx)`. With RSA-PSS verification of a signature and PKCS#1 parsing of
a marshalled key as the only assumptions, a signed transfer with valid amounts from one of the
key's addresses crosses the wire as it left and passes `SignedTx.Valid` (`signed_tx_valid`).
-/

namespace Cryptopuff

/-! ## The block header -/

theorem length_be64 (x : Int64) : (be64 x).length = 8 := by simp [be64]

/-- The bytes `Block.UpdateHash` digests determine the parent's hash, the height, the nonce,
the destination's bytes, the reward amount and the digest of the transactions' JSON, and are
determined by them. -/
theorem Block.header_injective (C : Crypto) (b₁ b₂ : Block) :
    b₁.header C = b₂.header C ↔
      b₁.previousHash = b₂.previousHash ∧ b₁.height = b₂.height ∧ b₁.nonce = b₂.nonce ∧
      Bytes.data b₁.rewardOutput.destination = Bytes.data b₂.rewardOutput.destination ∧
      b₁.rewardOutput.amount = b₂.rewardOutput.amount ∧
      C.md5 (utf8 (Json.render (SignedTx.listToJson b₁.transactions))) =
        C.md5 (utf8 (Json.render (SignedTx.listToJson b₂.transactions))) := by
  constructor
  · intro h
    simp only [Block.header, List.append_assoc] at h
    obtain ⟨hp, h⟩ := List.append_inj h (by rw [Hash.length_eq, Hash.length_eq])
    obtain ⟨hh, h⟩ := List.append_inj h (by rw [length_be64, length_be64])
    obtain ⟨hn, h⟩ := List.append_inj h (by rw [length_be64, length_be64])
    obtain ⟨-, h⟩ := List.append_inj h (by rw [length_be64, length_be64])
    have hlen := congrArg List.length h
    simp only [List.length_append, length_be64, Hash.length_eq, Nat.add_right_cancel_iff] at hlen
    obtain ⟨hd, h⟩ := List.append_inj h hlen
    obtain ⟨ha, ht⟩ := List.append_inj h (by rw [length_be64, length_be64])
    exact ⟨Hash.ext_bytes hp, be64_injective hh, be64_injective hn, hd, be64_injective ha,
      Hash.ext_bytes ht⟩
  · rintro ⟨hp, hh, hn, hd, ha, ht⟩
    simp only [Block.header, hp, hh, hn, hd, ha, ht]

/-- A nil reward destination and an empty one are written alike: two blocks that differ only
there have one header under every digest. -/
theorem header_nil_destination : ∃ b₁ b₂ : Block,
    b₁.rewardOutput.destination ≠ b₂.rewardOutput.destination ∧ ∀ C, b₁.header C = b₂.header C :=
  ⟨Block.zero, { Block.zero with rewardOutput := ⟨some [], 0⟩ }, by decide, fun _ => rfl⟩

/-! ## Signing a transfer -/

/-- An RSA private key as `Tx.Sign` uses it: the public half it marshals, and the secret that
only the signing primitive reads. -/
structure PrivateKey where
  publicKey : PublicKey
  secret : Nat

/-- `Tx.Sign(k)`: sign the MD5 digest of `json.Marshal(t)` with `rsa.SignPSS`, take the
random `id`, attach the marshalled public key and hash the result. `signPSS` is
`rsa.SignPSS(rand.Reader, k, crypto.MD5, digest, nil)`. -/
def Tx.sign (C : Crypto) (signPSS : PrivateKey → Hash → Except String (List UInt8))
    (k : PrivateKey) (id : TxID) (t : Tx) : Except String SignedTx :=
  match signPSS k (C.md5 (utf8 (Json.render t.toJson))) with
  | .error e => .error ("cryptopuff: failed to sign transaction: " ++ e)
  | .ok sig => .ok (SignedTx.updateHash C
      { toTx := t, hash := emptyHash, id := id, signature := some sig,
        publicKey := some (C.marshalPKCS1PublicKey k.publicKey) })

section Signing

variable {C : Crypto} {signPSS : PrivateKey → Hash → Except String (List UInt8)}
  {k : PrivateKey} {t : Tx}

/-- The address check of `ValidSignature` passes on a source derived from the key. -/
theorem addressFromKey_matches (v : Version) (pk : PublicKey)
    (hsrc : t.source = addressFromKey C v pk) :
    ¬(Bytes.data (addressFromKey C .v1 pk) ≠ Bytes.data t.source ∧
      Bytes.data (addressFromKey C .v2 pk) ≠ Bytes.data t.source) := by
  rintro ⟨h1, h2⟩
  cases v
  · exact h1 (by rw [hsrc])
  · exact h2 (by rw [hsrc])

/-- A signed transfer from one of the key's addresses. With signatures `signPSS` makes verifying
and marshalled keys parsing back, `Tx.Sign` succeeds whenever `rsa.SignPSS` does; what it
returns is the transfer `t`, `json.Unmarshal` and `UpdateHash` on the receiving side give it
back with its hash, and it passes `SignedTx.Valid` when its amounts are valid. -/
theorem signed_tx_valid
    (hverify : ∀ k d sig, signPSS k d = .ok sig → C.verifyPSS k.publicKey d sig = true)
    (hparse : ∀ pk, C.parsePKCS1PublicKey (C.marshalPKCS1PublicKey pk) = some pk)
    (v : Version) (id : TxID) (hsrc : t.source = addressFromKey C v k.publicKey)
    (hamt : 0 < t.amount.val) (hfee : 0 ≤ t.fee.val) (hsum : Int64.InRange (t.fee.val + t.amount.val)) :
    (∀ sig, signPSS k (C.md5 (utf8 (Json.render t.toJson))) = .ok sig →
      ∃ s, Tx.sign C signPSS k id t = .ok s) ∧
    ∀ s, Tx.sign C signPSS k id t = .ok s →
      s.toTx = t ∧ decodeSignedTx C s.marshal = .ok s ∧ s.valid C = .ok () := by
  refine ⟨fun sig hs => ⟨_, by rw [Tx.sign, hs]⟩, fun s hs => ?_⟩
  unfold Tx.sign at hs
  split at hs
  · cases hs
  · next sig hsig =>
      cases hs
      refine ⟨rfl, decodeSignedTx_marshal C _, SignedTx.valid_eq_ok.2 ⟨⟨hfee, hamt, hsum⟩, ?_⟩⟩
      simp only [SignedTx.validSignature, SignedTx.updateHash, Bytes.data_some, hparse]
      rw [if_neg (addressFromKey_matches v _ hsrc), if_pos (hverify k _ sig hsig)]

end Signing

/-- Primitives for which the assumptions of `signed_tx_valid` hold: a key marshals to its
two numbers in unary and parses back, and a signature verifies when it is the key's first
number in unary followed by the digest. -/
def unaryKeys : Crypto where
  md5 := (default : Crypto).md5
  parsePKCS1PublicKey l := some ⟨l.count 1, l.count 2⟩
  marshalPKCS1PublicKey k := List.replicate k.n 1 ++ List.replicate k.e 2
  verifyPSS k d sig := sig == List.replicate k.n 1 ++ d.bytes

/-- The signing primitive `unaryKeys` verifies. -/
def unarySigner (k : PrivateKey) (d : Hash) : Except String (List UInt8) :=
  .ok (List.replicate k.publicKey.n 1 ++ d.bytes)

/-- The key `(1, 1)`. -/
def unitKey : PrivateKey := ⟨⟨1, 1⟩, 0⟩

/-- One coin, no fee, from the first address of `unitKey`. -/
def oneCoin : Tx := ⟨⟨none, 1⟩, addressFromKey unaryKeys .v1 unitKey.publicKey, 0⟩

theorem signed_tx_valid_unary :
    (∀ k d sig, unarySigner k d = .ok sig → unaryKeys.verifyPSS k.publicKey d sig = true) ∧
    (∀ pk, unaryKeys.parsePKCS1PublicKey (unaryKeys.marshalPKCS1PublicKey pk) = some pk) ∧
    oneCoin.source = addressFromKey unaryKeys .v1 unitKey.publicKey ∧
    0 < oneCoin.amount.val ∧ 0 ≤ oneCoin.fee.val ∧
    Int64.InRange (oneCoin.fee.val + oneCoin.amount.val) ∧
    (∀ sig, unarySigner unitKey (unaryKeys.md5 (utf8 (Json.render oneCoin.toJson))) = .ok sig →
      ∃ s, Tx.sign unaryKeys unarySigner unitKey TxID.zero oneCoin = .ok s) ∧
    ∀ s, Tx.sign unaryKeys unarySigner unitKey TxID.zero oneCoin = .ok s →
      s.toTx = oneCoin ∧ decodeSignedTx unaryKeys s.marshal = .ok s ∧
      s.valid unaryKeys = .ok () :=
  have hverify : ∀ k d sig, unarySigner k d = .ok sig →
      unaryKeys.verifyPSS k.publicKey d sig = true := fun k d sig h => by
    cases h
    exact beq_self_eq_true _
  have hparse : ∀ pk, unaryKeys.parsePKCS1PublicKey (unaryKeys.marshalPKCS1PublicKey pk) = some pk :=
    fun pk => by simp [unaryKeys, List.count_replicate]
  have h1 : oneCoin.amount.val = 1 := Int64.ofNat_val 1 (by norm_num)
  have h0 : oneCoin.fee.val = 0 := Int64.ofNat_val 0 (by norm_num)
  have hamt : 0 < oneCoin.amount.val := by rw [h1]; norm_num
  have hfee : 0 ≤ oneCoin.fee.val := by rw [h0]
  have hsum : Int64.InRange (oneCoin.fee.val + oneCoin.amount.val) := by
    rw [h0, h1]; exact ⟨by norm_num, by norm_num⟩
  ⟨hverify, hparse, rfl, hamt, hfee, hsum,
    signed_tx_valid hverify hparse .v1 TxID.zero rfl hamt hfee hsum⟩

end Cryptopuff
