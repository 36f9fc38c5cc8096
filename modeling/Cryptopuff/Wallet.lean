import Cryptopuff.Hashing

/-!
# The node's own keys (db.go)

`migrate` also creates the two tables that hold what the node owns: `keys`, one PEM-encoded
private key per address, and `miner_address`, the address `mine` pays its rewards to. On a
database without keys it draws a key with `GenerateKey`, stores it and makes its address the
miner's. `DB.AddKey` stores a key with `INSERT OR IGNORE`, `DB.SetMinerAddress` rewrites every
row of `miner_address`, and `DB.Key` and `DB.MinerAddress` read them back. Nothing deletes a row
of either table.

`Wallet` is the two tables and `WalletReachable` what a node can make of them from a new
database. Read `minerAddress_last_set` first: on every reachable wallet `DB.MinerAddress`, whose
error stops the miner with `log.Fatalf`, succeeds, and returns the address of the last
`SetMinerAddress`. `key_never_replaced` says that once `DB.Key` finds a key at an address it
finds the same key after every later run, and that `DB.AddKey` stores a key under a fresh
address.

`EncodePrivateKeyPEM` and `DecodePrivateKeyPEM` are the parameters `encodePEM` and `decodePEM`;
the PEM and PKCS#1 formats they implement are not modelled.
-/

namespace Cryptopuff

/-- A row of `keys`: the address, which is the primary key, and the PEM-encoded private key. -/
structure KeyRow where
  address : List UInt8
  privateKey : List UInt8
deriving DecidableEq

/-- The tables `keys` and `miner_address`, rows in insertion order. -/
structure Wallet where
  keys : List KeyRow
  minerAddress : List (List UInt8)
deriving DecidableEq

namespace Wallet

/-- `addKey`: `INSERT OR IGNORE INTO keys (address, private_key)`; a row already stored at the
address is kept. -/
def addKey (W : Wallet) (a : List UInt8) (pem : List UInt8) : Wallet :=
  if a ∈ W.keys.map (·.address) then W else { W with keys := W.keys ++ [⟨a, pem⟩] }

/-- What `migrate` does to the two tables: when `SELECT 1 FROM keys LIMIT 1` finds no row,
store the key `GenerateKey` drew under its `DefaultVersion` address and insert that address
into `miner_address`. -/
def migrate (C : Crypto) (encodePEM : PrivateKey → List UInt8) (k : PrivateKey) (W : Wallet) :
    Wallet :=
  if W.keys = [] then
    let a := Bytes.data (addressFromKey C .v1 k.publicKey)
    { W.addKey a (encodePEM k) with minerAddress := W.minerAddress ++ [a] }
  else W

@[simp] theorem addKey_minerAddress (W : Wallet) (a pem : List UInt8) :
    (W.addKey a pem).minerAddress = W.minerAddress := by
  unfold addKey
  split_ifs <;> rfl

theorem keys_prefix_addKey (W : Wallet) (a pem : List UInt8) :
    W.keys <+: (W.addKey a pem).keys := by
  unfold addKey
  split_ifs
  · exact List.prefix_refl _
  · exact List.prefix_append _ _

theorem keys_prefix_migrate (C : Crypto) (encodePEM : PrivateKey → List UInt8) (k : PrivateKey)
    (W : Wallet) : W.keys <+: (W.migrate C encodePEM k).keys := by
  unfold migrate
  split_ifs
  · exact W.keys_prefix_addKey _ _
  · exact List.prefix_refl _

end Wallet

/-- `DB.AddKey`: the key's address under `version`, and the wallet with the key stored there. -/
def DB.addKey (C : Crypto) (encodePEM : PrivateKey → List UInt8) (version : Version)
    (k : PrivateKey) (W : Wallet) : Address × Wallet :=
  let a := addressFromKey C version k.publicKey
  (a, W.addKey (Bytes.data a) (encodePEM k))

/-- `DB.Key`: `SELECT private_key FROM keys WHERE address = ?`, `sql.ErrNoRows` when no row
matches, then `DecodePrivateKeyPEM`. -/
def DB.key (decodePEM : List UInt8 → Except Err PrivateKey) (a : Address) (W : Wallet) :
    Except Err PrivateKey :=
  match W.keys.find? (·.address == Bytes.data a) with
  | some r => decodePEM r.privateKey
  | none => .error .noRows

/-- `DB.MinerAddress`: `SELECT address FROM miner_address` scanned into the first row's
address, `sql.ErrNoRows` when the table is empty. -/
def DB.minerAddress (W : Wallet) : Except Err (List UInt8) :=
  match W.minerAddress with
  | a :: _ => .ok a
  | [] => .error .noRows

/-- `DB.SetMinerAddress`: `UPDATE miner_address SET address = ?`, which rewrites every row. -/
def DB.setMinerAddress (a : Address) (W : Wallet) : Wallet :=
  { W with minerAddress := W.minerAddress.map fun _ => Bytes.data a }

/-- What a node does to its wallet: `DB.AddKey` from `POST /api/keys`, `DB.SetMinerAddress`
from `POST /api/addresses/miner`, and opening the database again, which runs `migrate` with the
key `GenerateKey` draws. -/
inductive WalletOp where
  | addKey (version : Version) (k : PrivateKey)
  | setMinerAddress (a : Address)
  | reopen (k : PrivateKey)

/-- One wallet operation. -/
def WalletOp.run (C : Crypto) (encodePEM : PrivateKey → List UInt8) : WalletOp → Wallet → Wallet
  | .addKey v k, W => (DB.addKey C encodePEM v k W).2
  | .setMinerAddress a, W => DB.setMinerAddress a W
  | .reopen k, W => W.migrate C encodePEM k

/-- The wallets a node can hold: `migrate` on a new database, then any operations. -/
inductive WalletReachable (C : Crypto) (encodePEM : PrivateKey → List UInt8) : Wallet → Prop
  | init (k : PrivateKey) : WalletReachable C encodePEM ((⟨[], []⟩ : Wallet).migrate C encodePEM k)
  | step {W : Wallet} (op : WalletOp) :
      WalletReachable C encodePEM W → WalletReachable C encodePEM (op.run C encodePEM W)

namespace Wallet

/-- What every reachable wallet keeps: one row per address in `keys`, at least one key, and
one row in `miner_address`. -/
structure Inv (W : Wallet) : Prop where
  addresses_nodup : (W.keys.map (·.address)).Nodup
  keys_ne : W.keys ≠ []
  miner_single : W.minerAddress.length = 1

variable {C : Crypto} {encodePEM : PrivateKey → List UInt8} {W : Wallet}

theorem Inv.addKey (hI : W.Inv) (a pem : List UInt8) : (W.addKey a pem).Inv := by
  unfold Wallet.addKey
  split_ifs with ha
  · exact hI
  · refine ⟨?_, by simp, hI.miner_single⟩
    rw [List.map_append, List.nodup_append]
    exact ⟨hI.addresses_nodup, List.nodup_singleton a, by simpa using ha⟩

theorem Inv.migrate (hI : W.Inv) (k : PrivateKey) : W.migrate C encodePEM k = W :=
  if_neg hI.keys_ne

theorem Inv.run (hI : W.Inv) : ∀ op : WalletOp, (op.run C encodePEM W).Inv
  | .addKey _ _ => hI.addKey _ _
  | .setMinerAddress _ =>
      ⟨hI.addresses_nodup, hI.keys_ne, by simp [WalletOp.run, DB.setMinerAddress, hI.miner_single]⟩
  | .reopen _ => by rw [WalletOp.run, hI.migrate]; exact hI

theorem inv_init (k : PrivateKey) : ((⟨[], []⟩ : Wallet).migrate C encodePEM k).Inv :=
  ⟨by simp [Wallet.migrate, Wallet.addKey], by simp [Wallet.migrate, Wallet.addKey],
    by simp [Wallet.migrate]⟩

end Wallet

theorem WalletReachable.inv {C : Crypto} {encodePEM : PrivateKey → List UInt8} {W : Wallet}
    (hW : WalletReachable C encodePEM W) : W.Inv := by
  induction hW with
  | init k => exact Wallet.inv_init k
  | step op _ ih => exact ih.run op

/-- No operation drops or rewrites a row of `keys`. -/
theorem WalletOp.keys_prefix (C : Crypto) (encodePEM : PrivateKey → List UInt8) (W : Wallet) :
    ∀ op : WalletOp, W.keys <+: (op.run C encodePEM W).keys
  | .addKey _ _ => W.keys_prefix_addKey _ _
  | .setMinerAddress _ => List.prefix_refl _
  | .reopen _ => W.keys_prefix_migrate C encodePEM _

/-- `DB.Key` reads the first row at the address, so a longer table answers the same. -/
theorem DB.key_of_prefix {decodePEM : List UInt8 → Except Err PrivateKey} {a : Address}
    {W W' : Wallet} (hp : W.keys <+: W'.keys) {key : PrivateKey}
    (hk : DB.key decodePEM a W = .ok key) : DB.key decodePEM a W' = .ok key := by
  obtain ⟨l, hl⟩ := hp
  unfold DB.key at hk ⊢
  rw [← hl, List.find?_append]
  split at hk
  · next r hr => rw [hr]; exact hk
  · cases hk

section Wallet

variable {C : Crypto} {encodePEM : PrivateKey → List UInt8}
  {decodePEM : List UInt8 → Except Err PrivateKey} {W : Wallet}

/-- A PEM codec for the witnesses: each number of the key as a run of one byte value. -/
def unaryPEM (k : PrivateKey) : List UInt8 :=
  List.replicate k.publicKey.n 1 ++ List.replicate k.publicKey.e 2 ++ List.replicate k.secret 3

/-- The decoder of `unaryPEM`, which counts the runs. -/
def unaryPEMDecode (b : List UInt8) : Except Err PrivateKey :=
  .ok ⟨⟨b.count 1, b.count 2⟩, b.count 3⟩

theorem unaryPEM_round_trip (k : PrivateKey) : unaryPEMDecode (unaryPEM k) = .ok k := by
  simp [unaryPEM, unaryPEMDecode, List.count_replicate]

/-- The wallet of a node that drew `unitKey` when it first opened its database, then added it
again at its `v2` address. -/
def keyedWallet : Wallet :=
  (DB.addKey unaryKeys unaryPEM .v2 unitKey ((⟨[], []⟩ : Wallet).migrate unaryKeys unaryPEM unitKey)).2

theorem keyedWallet_reachable : WalletReachable unaryKeys unaryPEM keyedWallet :=
  .step (.addKey .v2 unitKey) (.init unitKey)

/-- The `v2` address of `unitKey`, not yet in the wallet `migrate` leaves. -/
theorem unitKey_v2_fresh : Bytes.data (addressFromKey unaryKeys .v2 unitKey.publicKey) ∉
    ((⟨[], []⟩ : Wallet).migrate unaryKeys unaryPEM unitKey).keys.map (·.address) := by
  decide

/-- On every reachable wallet `DB.MinerAddress` succeeds; after `DB.SetMinerAddress a` it
returns `a`, and `DB.AddKey` and reopening the database leave its answer alone. -/
theorem minerAddress_last_set (hW : WalletReachable C encodePEM W) :
    (∃ a, DB.minerAddress W = .ok a) ∧
      ∀ op : WalletOp, DB.minerAddress (op.run C encodePEM W) =
        match op with
        | .setMinerAddress a => .ok (Bytes.data a)
        | _ => DB.minerAddress W := by
  have hI := hW.inv
  obtain ⟨a, ha⟩ := List.length_eq_one.1 hI.miner_single
  refine ⟨⟨a, by simp [DB.minerAddress, ha]⟩, fun op => ?_⟩
  cases op with
  | addKey v k => simp [WalletOp.run, DB.addKey, DB.minerAddress]
  | setMinerAddress a' => simp [WalletOp.run, DB.setMinerAddress, DB.minerAddress, ha]
  | reopen k => rw [WalletOp.run, hI.migrate]

/-- On `keyedWallet`, `SetMinerAddress` to the `v2` address of `unitKey` makes `MinerAddress`
return it, and reopening the database leaves the answer alone. -/
theorem minerAddress_last_set_keyedWallet : WalletReachable unaryKeys unaryPEM keyedWallet ∧
    (∃ a, DB.minerAddress keyedWallet = .ok a) ∧
    DB.minerAddress ((WalletOp.setMinerAddress (addressFromKey unaryKeys .v2 unitKey.publicKey)).run
      unaryKeys unaryPEM keyedWallet) = .ok (Bytes.data (addressFromKey unaryKeys .v2 unitKey.publicKey)) ∧
    DB.minerAddress ((WalletOp.reopen unitKey).run unaryKeys unaryPEM keyedWallet) =
      DB.minerAddress keyedWallet :=
  ⟨keyedWallet_reachable, (minerAddress_last_set keyedWallet_reachable).1,
    (minerAddress_last_set keyedWallet_reachable).2 (.setMinerAddress _),
    (minerAddress_last_set keyedWallet_reachable).2 (.reopen unitKey)⟩

/-- `keyedWallet` after reopening the database, `AddKey` of a key with the public half of
`unitKey` and another secret, and `SetMinerAddress` to the nil address. -/
def keyRun : Wallet :=
  (WalletOp.setMinerAddress none).run unaryKeys unaryPEM
    ((WalletOp.addKey .v2 ⟨unitKey.publicKey, 7⟩).run unaryKeys unaryPEM
      ((WalletOp.reopen unitKey).run unaryKeys unaryPEM keyedWallet))

/-- `DB.AddKey` stores a key under a fresh address, so that `DB.Key` on the address it returns
reads the key back through the PEM round trip; and a key `DB.Key` finds stays the key it finds
after every later run of wallet operations. -/
theorem key_never_replaced (hpem : ∀ k, decodePEM (encodePEM k) = .ok k) (v : Version)
    (k : PrivateKey) (hfresh : Bytes.data (addressFromKey C v k.publicKey) ∉ W.keys.map (·.address))
    {W' : Wallet} (hrun : Relation.ReflTransGen (fun W₁ W₂ => ∃ op : WalletOp,
      W₂ = op.run C encodePEM W₁) (DB.addKey C encodePEM v k W).2 W') :
    DB.key decodePEM (DB.addKey C encodePEM v k W).1 W' = .ok k := by
  have hk : DB.key decodePEM (addressFromKey C v k.publicKey) (DB.addKey C encodePEM v k W).2 =
      .ok k := by
    have hnone : W.keys.find? (·.address == Bytes.data (addressFromKey C v k.publicKey)) = none :=
      List.find?_eq_none.2 fun r hr h => hfresh (List.mem_map.2 ⟨r, hr, beq_iff_eq.1 h⟩)
    simp only [DB.key, DB.addKey, Wallet.addKey, if_neg hfresh, List.find?_append, hnone,
      Option.none_or]
    simp [hpem]
  induction hrun with
  | refl => exact hk
  | tail _ hop ih =>
      obtain ⟨op, rfl⟩ := hop
      exact DB.key_of_prefix (WalletOp.keys_prefix C encodePEM _ op) ih

/-- `unitKey` added at its `v2` address stays the key there after the database is reopened,
a key with the same public half and another secret is added at that address, and the miner
address is reset. -/
theorem key_never_replaced_keyedWallet :
    (∀ k, unaryPEMDecode (unaryPEM k) = .ok k) ∧
    Bytes.data (addressFromKey unaryKeys .v2 unitKey.publicKey) ∉
      ((⟨[], []⟩ : Wallet).migrate unaryKeys unaryPEM unitKey).keys.map (·.address) ∧
    Relation.ReflTransGen (fun W₁ W₂ => ∃ op : WalletOp, W₂ = op.run unaryKeys unaryPEM W₁)
      keyedWallet keyRun ∧
    DB.key unaryPEMDecode (DB.addKey unaryKeys unaryPEM .v2 unitKey
      ((⟨[], []⟩ : Wallet).migrate unaryKeys unaryPEM unitKey)).1 keyRun = .ok unitKey :=
  have hrun : Relation.ReflTransGen (fun W₁ W₂ => ∃ op : WalletOp, W₂ = op.run unaryKeys unaryPEM W₁)
      keyedWallet keyRun := .tail (.tail (.single ⟨_, rfl⟩) ⟨_, rfl⟩) ⟨_, rfl⟩
  ⟨unaryPEM_round_trip, unitKey_v2_fresh, hrun,
    key_never_replaced unaryPEM_round_trip .v2 unitKey unitKey_v2_fresh hrun⟩

end Wallet

end Cryptopuff
