import Mathlib.Tactic.NormNum
import Mathlib.Data.List.Basic

/-!
# Go values the node computes with

How the node's Go scalar types are read here. `Int64` is Go's `int64` together with Go's
wrapping `+`; SQLite's `INTEGER` arithmetic is written over `Int` where it occurs. A Go
byte slice is `Bytes`: `none` is the nil slice, which only `encoding/json` tells apart from
an empty one. `Hash` and `TxID` are the two 16-byte arrays of `hash.go` and `tx.go`.

The primitives the node takes from Go's standard library (`crypto/md5`, `crypto/rsa`,
`crypto/x509`) are left abstract in `Crypto`. Every result of the development holds for
every choice of them unless its statement says otherwise.
-/

namespace Cryptopuff

/-! ## `int64` -/

/-- Go's `int64`: an integer in the 64-bit two's-complement range. -/
structure Int64 where
  val : Int
  min_le : -2 ^ 63 ≤ val
  lt_max : val < 2 ^ 63
deriving DecidableEq

namespace Int64

/-- The integers an `int64` holds; `overflow.Add64` reports a sum outside this range. -/
def InRange (x : Int) : Prop := -2 ^ 63 ≤ x ∧ x < 2 ^ 63

instance (x : Int) : Decidable (InRange x) := inferInstanceAs (Decidable (_ ∧ _))

theorem bmod_min_le (x : Int) : -2 ^ 63 ≤ Int.bmod x (2 ^ 64) := by
  have := Int.le_bmod (x := x) (m := 2 ^ 64) (by norm_num)
  norm_num at this ⊢
  omega

theorem bmod_lt_max (x : Int) : Int.bmod x (2 ^ 64) < 2 ^ 63 := by
  have := Int.bmod_lt (x := x) (m := 2 ^ 64) (by norm_num)
  norm_num at this ⊢
  omega

/-- Two's-complement wrap into `int64`: what Go's fixed-width arithmetic does to a result. -/
def wrap (x : Int) : Int64 := ⟨Int.bmod x (2 ^ 64), bmod_min_le x, bmod_lt_max x⟩

instance : OfNat Int64 n := ⟨wrap n⟩

/-- Go's `+` on `int64`, which wraps on overflow. -/
instance : Add Int64 := ⟨fun a b => wrap (a.val + b.val)⟩

theorem val_inRange (a : Int64) : InRange a.val := ⟨a.min_le, a.lt_max⟩

/-- Wrapping changes nothing inside the range. -/
theorem wrap_val {x : Int} (h : InRange x) : (wrap x).val = x := by
  obtain ⟨h1, h2⟩ := h
  show Int.bmod x (2 ^ 64) = x
  rw [Int.bmod_def]; split <;> omega

/-- Go's `+` is exact when the exact sum is representable. -/
theorem add_val {a b : Int64} (h : InRange (a.val + b.val)) : (a + b).val = a.val + b.val :=
  wrap_val h

theorem ofNat_val (n : Nat) (h : n < 2 ^ 63) : (OfNat.ofNat n : Int64).val = n :=
  wrap_val ⟨by omega, by omega⟩

theorem ext_val {a b : Int64} (h : a.val = b.val) : a = b := by
  cases a; cases b; simp only at h; subst h; rfl

/-- Go's `+` is `+` on integers, wrapped. -/
theorem wrap_add (x y : Int) : wrap x + wrap y = wrap (x + y) :=
  ext_val (show Int.bmod (Int.bmod x (2 ^ 64) + Int.bmod y (2 ^ 64)) (2 ^ 64) = Int.bmod (x + y) (2 ^ 64) by
    rw [Int.bmod_add_bmod_congr, Int.add_bmod_bmod])

end Int64

/-! ## Byte strings -/

/-- A Go `[]byte`. `none` is the nil slice; only `encoding/json` tells it apart from an
empty one (`null` against `""`). -/
abbrev Bytes := Option (List UInt8)

/-- The bytes of a slice, nil or not; `bytes.Equal` compares these. -/
def Bytes.data (b : Bytes) : List UInt8 := b.getD []

@[simp] theorem Bytes.data_none : Bytes.data none = [] := rfl
@[simp] theorem Bytes.data_some (l : List UInt8) : Bytes.data (some l) = l := rfl

theorem byte_toNat_lt (b : UInt8) : b.toNat < 256 := b.toNat_lt_size

theorem byte_ofNat_toNat (b : UInt8) : UInt8.ofNat b.toNat = b :=
  UInt8.toNat.inj (UInt8.toNat_ofNat_of_lt b.toNat_lt_size)

/-- The `n` low-order bytes of `v`, most significant first. -/
def beBytes : Nat → Nat → List UInt8
  | 0, _ => []
  | n + 1, v => beBytes n (v / 256) ++ [UInt8.ofNat (v % 256)]

/-- `binary.Write(h, binary.BigEndian, x)` for an `int64`: its 8 two's-complement bytes. -/
def be64 (x : Int64) : List UInt8 := beBytes 8 (x.val % 2 ^ 64).toNat

@[simp] theorem length_beBytes (n v : Nat) : (beBytes n v).length = n := by
  induction n generalizing v with
  | zero => rfl
  | succ n ih => simp [beBytes, ih]

theorem beBytes_inj : ∀ {n v w : Nat}, v < 256 ^ n → w < 256 ^ n → beBytes n v = beBytes n w → v = w
  | 0, v, w, hv, hw, _ => by simp at hv hw; omega
  | n + 1, v, w, hv, hw, h => by
      obtain ⟨h1, h2⟩ := List.append_inj' h rfl
      rw [pow_succ] at hv hw
      have hq := beBytes_inj ((Nat.div_lt_iff_lt_mul (by norm_num)).2 hv)
        ((Nat.div_lt_iff_lt_mul (by norm_num)).2 hw) h1
      have hr := congrArg UInt8.toNat (List.singleton_inj.1 h2)
      rw [UInt8.toNat_ofNat_of_lt (Nat.mod_lt _ (by norm_num)),
        UInt8.toNat_ofNat_of_lt (Nat.mod_lt _ (by norm_num))] at hr
      simp only [UInt8.size] at hr
      omega

/-- Distinct `int64` values have distinct big-endian bytes. -/
theorem be64_injective {x y : Int64} (h : be64 x = be64 y) : x = y := by
  have hx := x.min_le
  have hx' := x.lt_max
  have hy := y.min_le
  have hy' := y.lt_max
  have := beBytes_inj (by omega) (by omega) h
  exact Int64.ext_val (by omega)

/-- The UTF-8 bytes of a text; `json.Marshal` returns the UTF-8 encoding of its output. -/
def utf8 (cs : List Char) : List UInt8 := cs.flatMap String.utf8EncodeChar

/-! ## Fallible code -/

@[simp] theorem Except.ok_bind {ε α β : Type} (a : α) (f : α → Except ε β) :
    (Except.ok a >>= f) = f a := rfl

@[simp] theorem Except.error_bind {ε α β : Type} (e : ε) (f : α → Except ε β) :
    (Except.error e >>= f) = Except.error e := rfl

/-- Fallible code succeeded exactly when its first step did and then the rest did. -/
theorem Except.bind_eq_ok {ε α β : Type} {x : Except ε α} {f : α → Except ε β} {b : β} :
    x >>= f = .ok b ↔ ∃ a, x = .ok a ∧ f a = .ok b := by
  cases x <;> simp

/-! ## Digests -/

/-- A 16-byte MD5 digest, `type Hash [md5.Size]byte`. -/
structure Hash where
  bytes : List UInt8
  length_eq : bytes.length = 16
deriving DecidableEq

/-- `EmptyHash`, the zero value; the store writes it as SQL `NULL`. -/
def emptyHash : Hash := ⟨List.replicate 16 0, rfl⟩

/-- `Hash.Valid`, the proof-of-work test: bytes 0 and 1 are zero and so are the top six
bits of byte 2. -/
def Hash.valid (h : Hash) : Bool :=
  match h.bytes with
  | b0 :: b1 :: b2 :: _ => b0 == 0 && b1 == 0 && b2 &&& 0xfc == 0
  | _ => false

/-- `type TxID [TxIDSize]byte`, the random nonce a transfer is signed with. -/
structure TxID where
  bytes : List UInt8
  length_eq : bytes.length = 16
deriving DecidableEq

/-! ## Cryptographic primitives -/

/-- An RSA public key, Go's `rsa.PublicKey`. -/
structure PublicKey where
  n : Nat
  e : Nat
deriving DecidableEq

/-- The standard-library primitives the node calls. -/
structure Crypto where
  /-- `md5.Sum`. -/
  md5 : List UInt8 → Hash
  /-- `x509.ParsePKCS1PublicKey`; `none` is its error. -/
  parsePKCS1PublicKey : List UInt8 → Option PublicKey
  /-- `x509.MarshalPKCS1PublicKey`. -/
  marshalPKCS1PublicKey : PublicKey → List UInt8
  /-- `rsa.VerifyPSS(k, crypto.MD5, digest, signature, nil) == nil`. -/
  verifyPSS : PublicKey → Hash → List UInt8 → Bool

/-- Primitives to run the model with: a constant digest, no parsable key and no valid
signature. -/
instance : Inhabited Crypto :=
  ⟨⟨fun _ => ⟨List.replicate 15 0 ++ [1], by simp⟩, fun _ => none, fun _ => [], fun _ _ _ => false⟩⟩

end Cryptopuff
