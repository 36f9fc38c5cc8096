import Cryptopuff.Types
import Cryptopuff.Codec.Json
import Cryptopuff.Codec.Base64

/-!
# The JSON schema of blocks and transactions

`encoding/json` reads a struct through the list of its fields: an embedded struct's fields
stand in its place, a `json:"-"` field is left out, and each field has a name and the
encoder and decoder of its type. `Field` is one entry of that list, and `members` and
`decodeStruct` are the two walks over it, so that the encoder and the decoder of every
struct here are read off one table, as in Go.

A key selects a field under Unicode case folding and a key that selects none is skipped. A
value is decoded into the field as it stands, so `null` leaves an integer or a nested
struct unchanged. Go keeps decoding after a type error and reports the first one at the
end; the model stops at the first error, which is the error Go reports unless a custom
decoder (`Hash`, `TxID`) fails later in the same text. Error texts keep the source's
`cryptopuff:` messages and shorten those of `encoding/json`.

Read `SignedTx.unmarshal_marshal` and `Block.unmarshal_marshal` first: decoding what
`json.Marshal` wrote gives the value back with its `Hash` fields at their zero value.
`Hash.scan_value` and `Address.scan_value` are the same round trip through a store column.
-/

namespace Cryptopuff

/-! ## Scalars -/

/-- `UnmarshalTypeError.Error`, without the value and the field. -/
def typeError (type : String) : String :=
  "json: cannot unmarshal into Go value of type " ++ type

/-- An `int64` field. -/
def Int64.toJson (x : Int64) : Json := .num x.val

/-- Decoding into an `int64`: `null` leaves it, a number must fit in 64 bits. -/
def Int64.decode (j : Json) (old : Int64) : Except String Int64 :=
  match j with
  | .null => .ok old
  | .num n => if h : Int64.InRange n then .ok ⟨n, h.1, h.2⟩ else .error (typeError "int64")
  | _ => .error (typeError "int64")

/-- A `[]byte` field: `null` for nil, standard Base64 otherwise. -/
def Bytes.toJson : Bytes → Json
  | none => .null
  | some bs => .str (Base64.encode bs)

/-- Decoding into a `[]byte`: `null` is nil and a string is Base64 text. -/
def Bytes.decode (j : Json) (_old : Bytes) : Except String Bytes :=
  match j with
  | .null => .ok none
  | .str s => (Base64.decode s).map some
  | _ => .error (typeError "[]uint8")

/-- `json.Unmarshal` into a Go `string`, with which both `UnmarshalJSON` methods start. -/
def decodeString : Json → Except String (List Char)
  | .null => .ok []
  | .str s => .ok s
  | _ => .error (typeError "string")

/-- `Hash.MarshalJSON`: the hex text of all sixteen bytes, `EmptyHash` included. -/
def Hash.toJson (h : Hash) : Json := .str (Hex.encode h.bytes)

/-- Hex text to a hash, as `Hash.Scan` and `Hash.UnmarshalJSON` both read it: no bytes is
`EmptyHash`, otherwise there must be sixteen. A length error reports `got s v` of the text
`s` and its bytes `v`: `Scan` reports the text's length, `UnmarshalJSON` the bytes'. -/
def Hash.ofHex (got : List Char → List UInt8 → Nat) (s : List Char) : Except String Hash :=
  match Hex.decode s with
  | .error e => .error ("cryptopuff: failed to hex decode hash: " ++ e)
  | .ok v =>
      if v.length = 0 then .ok emptyHash
      else if h : v.length = 16 then .ok ⟨v, h⟩
      else .error ("cryptopuff: invalid Hash length, expected 16, got " ++ toString (got s v))

/-- `Hash.UnmarshalJSON`. -/
def Hash.decode (j : Json) (_old : Hash) : Except String Hash :=
  match decodeString j with
  | .error e => .error ("cryptopuff: failed to unmarshal hash: " ++ e)
  | .ok s => Hash.ofHex (fun _ v => v.length) s

/-- `TxID.MarshalJSON`. -/
def TxID.toJson (t : TxID) : Json := .str (Hex.encode t.bytes)

/-- `TxID.UnmarshalJSON`: unlike a hash, a TxID is never empty. -/
def TxID.decode (j : Json) (_old : TxID) : Except String TxID :=
  match decodeString j with
  | .error e => .error ("cryptopuff: failed to unmarshal TxID: " ++ e)
  | .ok s =>
      match Hex.decode s with
      | .error e => .error ("cryptopuff: failed to hex decode TxID: " ++ e)
      | .ok v =>
          if h : v.length = 16 then .ok ⟨v, h⟩
          else .error ("cryptopuff: invalid TxID length, expected 16, got " ++ toString v.length)

theorem Int64.decode_toJson (x old : Int64) : Int64.decode x.toJson old = .ok x := by
  simp [Int64.decode, Int64.toJson, x.val_inRange]

theorem Bytes.decode_toJson (b old : Bytes) : Bytes.decode b.toJson old = .ok b := by
  cases b with
  | none => rfl
  | some bs => simp [Bytes.decode, Bytes.toJson, Base64.decode_encode, Except.map]

theorem Hash.ofHex_encode (got : List Char → List UInt8 → Nat) (h : Hash) :
    Hash.ofHex got (Hex.encode h.bytes) = .ok h := by
  simp [Hash.ofHex, Hex.decode_encode, h.length_eq]

theorem Hash.decode_toJson (h old : Hash) : Hash.decode h.toJson old = .ok h :=
  Hash.ofHex_encode (fun _ v => v.length) h

theorem TxID.decode_toJson (t old : TxID) : TxID.decode t.toJson old = .ok t := by
  simp [TxID.decode, TxID.toJson, decodeString, Hex.decode_encode, t.length_eq]

/-! ## Structs -/

/-- A field of a struct as `encoding/json` lists it: its name, where its value sits (`get`,
`set`) and the encoder and decoder of its type. -/
structure Field (σ : Type) : Type 1 where
  name : String
  τ : Type
  get : σ → τ
  set : σ → τ → σ
  encode : τ → Json
  decode : Json → τ → Except String τ

/-- An embedded struct's field, promoted into the struct that embeds it. -/
def Field.promote {σ ρ : Type} (get : σ → ρ) (set : σ → ρ → σ) (f : Field ρ) : Field σ :=
  ⟨f.name, f.τ, f.get ∘ get, fun v t => set v (f.set (get v) t), f.encode, f.decode⟩

/-- The members `json.Marshal` writes for a struct: one per field, in order. -/
def members {σ : Type} (fs : List (Field σ)) (x : σ) : List (List Char × Json) :=
  fs.map fun f => (f.name.toList, f.encode (f.get x))

/-- The character a key is compared by. Keys select fields under Unicode case folding, and
the only non-ASCII characters that fold onto ASCII letters are the Kelvin sign and the
long s. -/
def foldKeyChar (c : Char) : Char :=
  if c = 'K' then 'k' else if c = 'ſ' then 's' else c.toLower

/-- Whether an object key selects the field called `name`. -/
def keyMatches (k : List Char) (name : String) : Bool :=
  k.map foldKeyChar == name.toList.map foldKeyChar

/-- Decoding one member: the field its key selects reads the value, other keys are skipped. -/
def decodeMember {σ : Type} (fs : List (Field σ)) (m : List Char × Json) (v : σ) :
    Except String σ :=
  match fs.find? fun f => keyMatches m.1 f.name with
  | some f => (f.decode m.2 (f.get v)).map (f.set v)
  | none => .ok v

/-- Decoding an object's members in order, stopping at the first error. -/
def decodeMembers {σ : Type} (fs : List (Field σ)) : List (List Char × Json) → σ → Except String σ
  | [], v => .ok v
  | m :: ms, v =>
      match decodeMember fs m v with
      | .ok v => decodeMembers fs ms v
      | .error e => .error e

/-- Decoding into a struct: `null` leaves it, an object sets the fields its keys select. -/
def decodeStruct {σ : Type} (fs : List (Field σ)) (type : String) (j : Json) (v : σ) :
    Except String σ :=
  match j with
  | .null => .ok v
  | .obj ms => decodeMembers fs ms v
  | _ => .error (typeError type)

/-- `json.Unmarshal(data, &v)` for a struct: the syntax pass, then the decode into `v`. -/
def jsonUnmarshal {σ : Type} (fs : List (Field σ)) (type : String) (text : List Char) (v : σ) :
    Except String σ :=
  match Json.parse text with
  | some j => decodeStruct fs type j v
  | none => .error "invalid character looking for beginning of value"

/-! ## The node's structs -/

/-- The fields of `TxOutput`. -/
def TxOutput.fields : List (Field TxOutput) :=
  [⟨"Destination", Bytes, TxOutput.destination, fun o d => { o with destination := d },
      Bytes.toJson, Bytes.decode⟩,
    ⟨"Amount", Int64, TxOutput.amount, fun o a => { o with amount := a },
      Int64.toJson, Int64.decode⟩]

/-- The fields of `Tx`, those of the embedded `TxOutput` first. -/
def Tx.fields : List (Field Tx) :=
  TxOutput.fields.map (Field.promote Tx.toTxOutput fun t o => { t with toTxOutput := o }) ++
    [⟨"Source", Bytes, Tx.source, fun t a => { t with source := a }, Bytes.toJson, Bytes.decode⟩,
      ⟨"Fee", Int64, Tx.fee, fun t f => { t with fee := f }, Int64.toJson, Int64.decode⟩]

/-- The fields of `SignedTx`, those of the embedded `Tx` first. `Hash` is `json:"-"`. -/
def SignedTx.fields : List (Field SignedTx) :=
  Tx.fields.map (Field.promote SignedTx.toTx fun s t => { s with toTx := t }) ++
    [⟨"ID", TxID, SignedTx.id, fun s i => { s with id := i }, TxID.toJson, TxID.decode⟩,
      ⟨"Signature", Bytes, SignedTx.signature, fun s b => { s with signature := b },
        Bytes.toJson, Bytes.decode⟩,
      ⟨"PublicKey", Bytes, SignedTx.publicKey, fun s b => { s with publicKey := b },
        Bytes.toJson, Bytes.decode⟩]

/-- A `TxOutput` as JSON. -/
def TxOutput.toJson (o : TxOutput) : Json := .obj (members TxOutput.fields o)

/-- Decoding into a `TxOutput`. -/
def TxOutput.decode (j : Json) (o : TxOutput) : Except String TxOutput :=
  decodeStruct TxOutput.fields "cryptopuff.TxOutput" j o

/-- A `Tx` as JSON: what the signature covers. -/
def Tx.toJson (t : Tx) : Json := .obj (members Tx.fields t)

/-- A `SignedTx` as JSON. -/
def SignedTx.toJson (s : SignedTx) : Json := .obj (members SignedTx.fields s)

/-- The zero `TxID`. -/
def TxID.zero : TxID := ⟨List.replicate 16 0, rfl⟩

/-- The zero `SignedTx`, into which `json.Unmarshal` decodes a fresh variable. -/
def SignedTx.zero : SignedTx :=
  { destination := none, amount := 0, source := none, fee := 0, hash := emptyHash,
    id := TxID.zero, signature := none, publicKey := none }

/-- A slice as JSON: `null` for nil, an array otherwise. -/
def sliceToJson {σ : Type} (toJson : σ → Json) : Option (List σ) → Json
  | none => .null
  | some l => .arr (l.map toJson)

/-- Decoding array elements into a slice of structs: element `i` into the slice's element `i`
while there is one, into a zero value past the end. -/
def decodeElems {σ : Type} (fs : List (Field σ)) (type : String) (zero : σ) :
    List Json → List σ → Except String (List σ)
  | [], _ => .ok []
  | j :: js, olds =>
      match decodeStruct fs type j (olds.headD zero) with
      | .ok s => (decodeElems fs type zero js olds.tail).map (s :: ·)
      | .error e => .error e

/-- Decoding into a slice of structs: `null` is nil and an array is a slice, empty or not. -/
def decodeSlice {σ : Type} (fs : List (Field σ)) (type : String) (zero : σ) (j : Json)
    (old : Option (List σ)) : Except String (Option (List σ)) :=
  match j with
  | .null => .ok none
  | .arr js => (decodeElems fs type zero js (old.getD [])).map some
  | _ => .error (typeError ("[]" ++ type))

/-- A `[]SignedTx` as JSON. -/
def SignedTx.listToJson : Option (List SignedTx) → Json := sliceToJson SignedTx.toJson

/-- Decoding into a `[]SignedTx`. -/
def SignedTx.decodeList : Json → Option (List SignedTx) → Except String (Option (List SignedTx)) :=
  decodeSlice SignedTx.fields "cryptopuff.SignedTx" SignedTx.zero

/-- The fields of `Block`. `Hash` is `json:"-"`. -/
def Block.fields : List (Field Block) :=
  [⟨"PreviousHash", Hash, Block.previousHash, fun b h => { b with previousHash := h },
      Hash.toJson, Hash.decode⟩,
    ⟨"Height", Int64, Block.height, fun b n => { b with height := n }, Int64.toJson, Int64.decode⟩,
    ⟨"Nonce", Int64, Block.nonce, fun b n => { b with nonce := n }, Int64.toJson, Int64.decode⟩,
    ⟨"RewardOutput", TxOutput, Block.rewardOutput, fun b o => { b with rewardOutput := o },
      TxOutput.toJson, TxOutput.decode⟩,
    ⟨"Transactions", Option (List SignedTx), Block.transactions,
      fun b l => { b with transactions := l }, SignedTx.listToJson, SignedTx.decodeList⟩]

/-- A `Block` as JSON. -/
def Block.toJson (b : Block) : Json := .obj (members Block.fields b)

/-- The zero `Block`, into which `DecodeBlock` decodes. -/
def Block.zero : Block :=
  { hash := emptyHash, previousHash := emptyHash, height := 0, nonce := 0,
    rewardOutput := ⟨none, 0⟩, transactions := none }

/-- `json.Marshal(stx)`, as text. -/
def SignedTx.marshal (s : SignedTx) : List Char := Json.render s.toJson

/-- `json.Unmarshal(data, &stx)` into a fresh `SignedTx`. -/
def SignedTx.unmarshal (text : List Char) : Except String SignedTx :=
  jsonUnmarshal SignedTx.fields "cryptopuff.SignedTx" text SignedTx.zero

/-- `json.Marshal(block)`, as text. -/
def Block.marshal (b : Block) : List Char := Json.render b.toJson

/-- `json.Unmarshal(data, &b)` into a fresh `Block`. -/
def Block.unmarshal (text : List Char) : Except String Block :=
  jsonUnmarshal Block.fields "cryptopuff.Block" text Block.zero

/-! ## Round trips -/

/-- A table's field names as keys compare them; `encoding/json` needs them distinct. -/
def Field.keys {σ : Type} (fs : List (Field σ)) : List (List Char) :=
  fs.map fun f => f.name.toList.map foldKeyChar

/-- Decoding each field of `gs` from `x`'s own encoding of it, in order. -/
def decodeFields {σ : Type} (x : σ) : List (Field σ) → σ → Except String σ
  | [], v => .ok v
  | f :: gs, v =>
      match (f.decode (f.encode (f.get x)) (f.get v)).map (f.set v) with
      | .ok v => decodeFields x gs v
      | .error e => .error e

@[simp] theorem members_cons {σ : Type} (f : Field σ) (gs : List (Field σ)) (x : σ) :
    members (f :: gs) x = (f.name.toList, f.encode (f.get x)) :: members gs x := rfl

/-- With distinct keys, a field's own name selects that field. -/
theorem find?_keyMatches {σ : Type} {fs : List (Field σ)} (hnd : (Field.keys fs).Nodup)
    {f : Field σ} (hf : f ∈ fs) : fs.find? (fun g => keyMatches f.name.toList g.name) = some f := by
  induction fs with
  | nil => cases hf
  | cons g gs ih =>
      simp only [Field.keys, List.map_cons, List.nodup_cons] at hnd
      rcases List.mem_cons.1 hf with rfl | hf
      · exact List.find?_cons_of_pos _ (by simp [keyMatches])
      · have hne : keyMatches f.name.toList g.name = false := by
          have : f.name.toList.map foldKeyChar ∈ Field.keys gs := List.mem_map_of_mem _ hf
          simp only [keyMatches, beq_eq_false_iff_ne]
          exact fun h => hnd.1 (h ▸ this)
        simp only [List.find?_cons, hne]
        exact ih hnd.2 hf

/-- Decoding the members a table wrote decodes each field from its own encoding. -/
theorem decodeMembers_members {σ : Type} {fs : List (Field σ)} (hnd : (Field.keys fs).Nodup)
    (x : σ) : ∀ {gs : List (Field σ)}, (∀ f ∈ gs, f ∈ fs) →
      ∀ v, decodeMembers fs (members gs x) v = decodeFields x gs v
  | [], _, _ => rfl
  | f :: gs, hsub, v => by
      simp only [members_cons, decodeMembers, decodeMember, decodeFields,
        find?_keyMatches hnd (hsub f (List.mem_cons_self _ _))]
      cases (f.decode (f.encode (f.get x)) (f.get v)).map (f.set v) with
      | error e => rfl
      | ok v' => exact decodeMembers_members hnd x (fun g hg => hsub g (List.mem_cons_of_mem _ hg)) v'

theorem decodeStruct_members {σ : Type} {fs : List (Field σ)} (hnd : (Field.keys fs).Nodup)
    (type : String) (x v : σ) :
    decodeStruct fs type (.obj (members fs x)) v = decodeFields x fs v :=
  decodeMembers_members hnd x (fun _ h => h) v

theorem TxOutput.decode_toJson (o old : TxOutput) : TxOutput.decode o.toJson old = .ok o := by
  rw [TxOutput.decode, TxOutput.toJson, decodeStruct_members (by decide)]
  simp [decodeFields, TxOutput.fields, Bytes.decode_toJson, Int64.decode_toJson, Except.map]

/-- `SignedTx.Hash` at its zero value, where a decode into a fresh variable leaves it. -/
def SignedTx.clearHash (s : SignedTx) : SignedTx := { s with hash := emptyHash }

/-- A block's `Hash` fields, its own and its transactions', at their zero value. -/
def Block.clearHashes (b : Block) : Block :=
  { b with hash := emptyHash, transactions := b.transactions.map (List.map SignedTx.clearHash) }

/-- Decoding a transaction's JSON into `v` overwrites every field but `Hash`. -/
theorem SignedTx.decode_toJson (s v : SignedTx) :
    decodeStruct SignedTx.fields "cryptopuff.SignedTx" s.toJson v = .ok { s with hash := v.hash } := by
  rw [SignedTx.toJson, decodeStruct_members (by decide)]
  simp [decodeFields, SignedTx.fields, Tx.fields, TxOutput.fields, Field.promote,
    Bytes.decode_toJson, Int64.decode_toJson, TxID.decode_toJson, Except.map]

/-- Decoding the elements of a slice, each from its own encoding into a zero value. -/
theorem decodeElems_toJson {σ : Type} {fs : List (Field σ)} {type : String} {zero : σ}
    {toJson : σ → Json} {g : σ → σ} (h : ∀ x, decodeStruct fs type (toJson x) zero = .ok (g x)) :
    ∀ l : List σ, decodeElems fs type zero (l.map toJson) [] = .ok (l.map g)
  | [] => rfl
  | x :: l => by
      simp only [List.map_cons, decodeElems, List.headD_nil, List.tail_nil, h,
        decodeElems_toJson h l]
      rfl

theorem decodeSlice_sliceToJson {σ : Type} {fs : List (Field σ)} {type : String} {zero : σ}
    {toJson : σ → Json} {g : σ → σ} (h : ∀ x, decodeStruct fs type (toJson x) zero = .ok (g x))
    (l : Option (List σ)) :
    decodeSlice fs type zero (sliceToJson toJson l) none = .ok (l.map (List.map g)) := by
  cases l with
  | none => rfl
  | some l => simp [decodeSlice, sliceToJson, decodeElems_toJson h, Except.map]

theorem SignedTx.decodeList_listToJson (l : Option (List SignedTx)) :
    SignedTx.decodeList (SignedTx.listToJson l) none = .ok (l.map (List.map SignedTx.clearHash)) :=
  decodeSlice_sliceToJson (fun s => SignedTx.decode_toJson s SignedTx.zero) l

theorem Block.decode_toJson (b : Block) :
    decodeStruct Block.fields "cryptopuff.Block" b.toJson Block.zero = .ok b.clearHashes := by
  rw [Block.toJson, decodeStruct_members (by decide)]
  simp [decodeFields, Block.fields, Block.zero, Hash.decode_toJson, Int64.decode_toJson,
    TxOutput.decode_toJson, SignedTx.decodeList_listToJson, Except.map]
  rfl

/-- A `[]Block` as JSON. -/
def Block.listToJson : Option (List Block) → Json := sliceToJson Block.toJson

/-- Decoding into a `[]Block`. -/
def Block.decodeList : Json → Option (List Block) → Except String (Option (List Block)) :=
  decodeSlice Block.fields "cryptopuff.Block" Block.zero

theorem Block.decodeList_listToJson (l : Option (List Block)) :
    Block.decodeList (Block.listToJson l) none = .ok (l.map (List.map Block.clearHashes)) :=
  decodeSlice_sliceToJson Block.decode_toJson l

/-- `json.Unmarshal` reads back what `json.Marshal` wrote, but for `Hash`. -/
theorem SignedTx.unmarshal_marshal (s : SignedTx) :
    SignedTx.unmarshal s.marshal = .ok s.clearHash := by
  rw [SignedTx.unmarshal, jsonUnmarshal, SignedTx.marshal, Json.parse_render]
  exact SignedTx.decode_toJson s SignedTx.zero

/-- `json.Unmarshal` reads back what `json.Marshal` wrote, but for the `Hash` fields. -/
theorem Block.unmarshal_marshal (b : Block) : Block.unmarshal b.marshal = .ok b.clearHashes := by
  rw [Block.unmarshal, jsonUnmarshal, Block.marshal, Json.parse_render]
  exact Block.decode_toJson b

/-! ## Store columns -/

/-- `Hash.Value`: `NULL` for `EmptyHash`, the hex text otherwise. -/
def Hash.value (h : Hash) : Option (List Char) :=
  if h = emptyHash then none else some (Hex.encode h.bytes)

/-- `Hash.Scan` of a `TEXT` column or `NULL`. -/
def Hash.scan : Option (List Char) → Except String Hash
  | none => .ok emptyHash
  | some v => Hash.ofHex (fun s _ => s.length) v

theorem Hash.scan_value (h : Hash) : Hash.scan h.value = .ok h := by
  unfold Hash.value
  split
  · next he => rw [he]; rfl
  · exact Hash.ofHex_encode (fun s _ => s.length) h

/-- Distinct hashes are distinct column values, so the store may key rows by `Hash`. -/
theorem Hash.value_injective {h h' : Hash} (he : h.value = h'.value) : h = h' := by
  have := Hash.scan_value h
  rw [he, Hash.scan_value] at this
  cases this; rfl

/-- `Address.Value`: the Base64 text of the bytes, nil or not. -/
def Address.value (a : Address) : List Char := Base64.encode (Bytes.data a)

/-- `Address.Scan` of a `TEXT` column; the slice it gives is never nil. -/
def Address.scan (v : List Char) : Except String Address :=
  match Base64.decode v with
  | .ok b => .ok (some b)
  | .error e => .error ("cryptopuff: failed to base64 decode address: " ++ e)

theorem Address.scan_value (a : Address) : Address.scan (Address.value a) = .ok (some (Bytes.data a)) := by
  simp [Address.scan, Address.value, Base64.decode_encode]

/-- Addresses are equal column values exactly when `bytes.Equal` holds, so the store may key
balances by an address's bytes. -/
theorem Address.value_eq_iff {a a' : Address} :
    Address.value a = Address.value a' ↔ Bytes.data a = Bytes.data a' :=
  ⟨Base64.encode_injective, fun h => by rw [Address.value, Address.value, h]⟩

end Cryptopuff
