import Cryptopuff.Basic

/-!
# `encoding/hex`

`Hash` and `TxID` travel as lower-case hex in JSON and in the store. `encode` is
`hex.EncodeToString`, `decode` is `hex.DecodeString`, which also accepts upper-case digits.
The one fact the rest needs is `decode_encode`.
-/

namespace Cryptopuff.Hex

/-- The lower-case hex digit of `d < 16`. -/
def digit (d : Nat) : Char := if d < 10 then Char.ofNat (48 + d) else Char.ofNat (87 + d)

/-- `fromHexChar`: the value of a hex digit of either case. -/
def value (c : Char) : Option Nat :=
  if '0' ≤ c ∧ c ≤ '9' then some (c.toNat - 48)
  else if 'a' ≤ c ∧ c ≤ 'f' then some (c.toNat - 87)
  else if 'A' ≤ c ∧ c ≤ 'F' then some (c.toNat - 55)
  else none

theorem value_digit_of_lt : ∀ d, d < 16 → value (digit d) = some d := by decide

/-- `hex.EncodeToString`. -/
def encode : List UInt8 → List Char
  | [] => []
  | b :: bs => digit (b.toNat / 16) :: digit (b.toNat % 16) :: encode bs

/-- `InvalidByteError.Error`, without the offending byte. -/
def invalidByte : String := "encoding/hex: invalid byte"

/-- `ErrLength.Error`. -/
def oddLength : String := "encoding/hex: odd length hex string"

/-- `hex.DecodeString`: digit pairs to bytes; a bad digit is reported before an odd length. -/
def decode : List Char → Except String (List UInt8)
  | [] => .ok []
  | [c] => if (value c).isSome then .error oddLength else .error invalidByte
  | c :: d :: rest =>
      match value c, value d with
      | some a, some b => (decode rest).map (UInt8.ofNat (16 * a + b) :: ·)
      | _, _ => .error invalidByte

@[simp] theorem length_encode (bs : List UInt8) : (encode bs).length = 2 * bs.length := by
  induction bs with
  | nil => rfl
  | cons b bs ih => simp [encode, ih]; omega

theorem decode_encode (bs : List UInt8) : decode (encode bs) = .ok bs := by
  induction bs with
  | nil => rfl
  | cons b bs ih =>
      have hb := byte_toNat_lt b
      have hbyte : UInt8.ofNat (16 * (b.toNat / 16) + b.toNat % 16) = b := by
        rw [show 16 * (b.toNat / 16) + b.toNat % 16 = b.toNat by omega]
        exact byte_ofNat_toNat b
      simp only [encode, decode, value_digit_of_lt _ (show b.toNat / 16 < 16 by omega),
        value_digit_of_lt _ (show b.toNat % 16 < 16 by omega), ih, hbyte]
      rfl

theorem encode_injective {a b : List UInt8} (h : encode a = encode b) : a = b := by
  have ha := decode_encode a
  rw [h, decode_encode] at ha
  cases ha; rfl

/-- Every digit `encode` writes is a lower-case hex digit. -/
theorem mem_encode {bs : List UInt8} {c : Char} (h : c ∈ encode bs) :
    ∃ d, d < 16 ∧ c = digit d := by
  induction bs with
  | nil => cases h
  | cons b bs ih =>
      simp only [encode, List.mem_cons] at h
      have hb := byte_toNat_lt b
      rcases h with rfl | rfl | h
      · exact ⟨_, by omega, rfl⟩
      · exact ⟨_, by omega, rfl⟩
      · exact ih h

end Cryptopuff.Hex
