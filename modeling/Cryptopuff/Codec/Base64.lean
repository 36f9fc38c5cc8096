import Cryptopuff.Basic

/-!
# `encoding/base64`

`encoding/json` writes a `[]byte` as a standard Base64 string and the store keys balance
rows by the Base64 text of an address. `encode` is `base64.StdEncoding.EncodeToString` and
`decode` is `base64.StdEncoding.DecodeString`, which skips CR and LF, insists on `=`
padding and ignores the unused low bits of a padded quantum. The offset a Go
`CorruptInputError` reports is not kept.
-/

namespace Cryptopuff.Base64

/-- The character of a 6-bit value in the standard alphabet. -/
def alphabet (i : Nat) : Char :=
  if i < 26 then Char.ofNat (65 + i)
  else if i < 52 then Char.ofNat (71 + i)
  else if i < 62 then Char.ofNat (i - 4)
  else if i = 62 then '+'
  else '/'

/-- The 6-bit value of a character of the standard alphabet. -/
def value (c : Char) : Option Nat :=
  if 'A' ≤ c ∧ c ≤ 'Z' then some (c.toNat - 65)
  else if 'a' ≤ c ∧ c ≤ 'z' then some (c.toNat - 71)
  else if '0' ≤ c ∧ c ≤ '9' then some (c.toNat + 4)
  else if c = '+' then some 62
  else if c = '/' then some 63
  else none

theorem value_alphabet : ∀ i, i < 64 → value (alphabet i) = some i := by decide

theorem alphabet_ne_pad : ∀ i, i < 64 → alphabet i ≠ '=' := by decide

theorem alphabet_ne_crlf : ∀ i, i < 64 → alphabet i ≠ '\r' ∧ alphabet i ≠ '\n' := by decide

/-- `base64.StdEncoding.EncodeToString`: three bytes to four characters, `=` padding. -/
def encode : List UInt8 → List Char
  | [] => []
  | [a] => [alphabet (a.toNat / 4), alphabet (a.toNat % 4 * 16), '=', '=']
  | [a, b] =>
      [alphabet (a.toNat / 4), alphabet (a.toNat % 4 * 16 + b.toNat / 16),
        alphabet (b.toNat % 16 * 4), '=']
  | a :: b :: c :: rest =>
      alphabet (a.toNat / 4) :: alphabet (a.toNat % 4 * 16 + b.toNat / 16) ::
        alphabet (b.toNat % 16 * 4 + c.toNat / 64) :: alphabet (c.toNat % 64) :: encode rest

/-- `CorruptInputError.Error`, without the offset. -/
def corrupt : String := "illegal base64 data"

/-- Quanta of four characters to bytes; only the last quantum may carry `=` padding. -/
def decodeQuanta : List Char → Except String (List UInt8)
  | [] => .ok []
  | w :: x :: y :: z :: rest =>
      match value w, value x with
      | some w, some x =>
          if rest = [] ∧ y = '=' ∧ z = '=' then .ok [UInt8.ofNat (w * 4 + x / 16)]
          else
            match value y with
            | none => .error corrupt
            | some y =>
                if rest = [] ∧ z = '=' then
                  .ok [UInt8.ofNat (w * 4 + x / 16), UInt8.ofNat (x % 16 * 16 + y / 4)]
                else
                  match value z with
                  | none => .error corrupt
                  | some z =>
                      (decodeQuanta rest).map fun bs =>
                        UInt8.ofNat (w * 4 + x / 16) :: UInt8.ofNat (x % 16 * 16 + y / 4) ::
                          UInt8.ofNat (y % 4 * 64 + z) :: bs
      | _, _ => .error corrupt
  | _ => .error corrupt

/-- `base64.StdEncoding.DecodeString`; CR and LF are skipped wherever they stand. -/
def decode (cs : List Char) : Except String (List UInt8) :=
  decodeQuanta (cs.filter fun c => c ≠ '\r' ∧ c ≠ '\n')

/-- Every character `encode` writes is a letter of the alphabet or the pad. -/
theorem mem_encode {bs : List UInt8} {c : Char} (h : c ∈ encode bs) :
    c = '=' ∨ ∃ i, i < 64 ∧ c = alphabet i := by
  induction bs using encode.induct with
  | case1 => cases h
  | case2 a =>
      have := byte_toNat_lt a
      simp only [encode, List.mem_cons, List.not_mem_nil, or_false] at h
      rcases h with rfl | rfl | rfl | rfl
      · exact .inr ⟨_, by omega, rfl⟩
      · exact .inr ⟨_, by omega, rfl⟩
      all_goals exact .inl rfl
  | case3 a b =>
      have := byte_toNat_lt a
      have := byte_toNat_lt b
      simp only [encode, List.mem_cons, List.not_mem_nil, or_false] at h
      rcases h with rfl | rfl | rfl | rfl
      · exact .inr ⟨_, by omega, rfl⟩
      · exact .inr ⟨_, by omega, rfl⟩
      · exact .inr ⟨_, by omega, rfl⟩
      · exact .inl rfl
  | case4 a b c rest ih =>
      have := byte_toNat_lt a
      have := byte_toNat_lt b
      have := byte_toNat_lt c
      simp only [encode, List.mem_cons] at h
      rcases h with rfl | rfl | rfl | rfl | h
      · exact .inr ⟨_, by omega, rfl⟩
      · exact .inr ⟨_, by omega, rfl⟩
      · exact .inr ⟨_, by omega, rfl⟩
      · exact .inr ⟨_, by omega, rfl⟩
      · exact ih h

/-- A byte rebuilt from its parts. -/
theorem byte_eq {b : UInt8} {n : Nat} (h : n = b.toNat) : UInt8.ofNat n = b := by
  rw [h]; exact byte_ofNat_toNat b

theorem decodeQuanta_encode (bs : List UInt8) : decodeQuanta (encode bs) = .ok bs := by
  induction bs using encode.induct with
  | case1 => rfl
  | case2 a =>
      have := byte_toNat_lt a
      simp only [encode, decodeQuanta, value_alphabet _ (show a.toNat / 4 < 64 by omega),
        value_alphabet _ (show a.toNat % 4 * 16 < 64 by omega), and_self, ite_true]
      rw [byte_eq (b := a) (by omega)]
  | case3 a b =>
      have := byte_toNat_lt a
      have := byte_toNat_lt b
      simp only [encode, decodeQuanta,
        value_alphabet _ (show a.toNat / 4 < 64 by omega),
        value_alphabet _ (show a.toNat % 4 * 16 + b.toNat / 16 < 64 by omega),
        value_alphabet _ (show b.toNat % 16 * 4 < 64 by omega),
        alphabet_ne_pad _ (show b.toNat % 16 * 4 < 64 by omega), false_and, and_false,
        ite_false, and_self, ite_true]
      rw [byte_eq (b := a) (by omega), byte_eq (b := b) (by omega)]
  | case4 a b c rest ih =>
      have := byte_toNat_lt a
      have := byte_toNat_lt b
      have := byte_toNat_lt c
      simp only [encode, decodeQuanta,
        value_alphabet _ (show a.toNat / 4 < 64 by omega),
        value_alphabet _ (show a.toNat % 4 * 16 + b.toNat / 16 < 64 by omega),
        value_alphabet _ (show b.toNat % 16 * 4 + c.toNat / 64 < 64 by omega),
        value_alphabet _ (show c.toNat % 64 < 64 by omega),
        alphabet_ne_pad _ (show b.toNat % 16 * 4 + c.toNat / 64 < 64 by omega),
        alphabet_ne_pad _ (show c.toNat % 64 < 64 by omega), false_and, and_false,
        ite_false, ih]
      rw [byte_eq (b := a) (by omega), byte_eq (b := b) (by omega), byte_eq (b := c) (by omega)]
      rfl

theorem decode_encode (bs : List UInt8) : decode (encode bs) = .ok bs := by
  have hkeep : (encode bs).filter (fun c => c ≠ '\r' ∧ c ≠ '\n') = encode bs := by
    rw [List.filter_eq_self]
    intro c hc
    rcases mem_encode hc with rfl | ⟨i, hi, rfl⟩
    · decide
    · simpa using alphabet_ne_crlf i hi
  rw [decode, hkeep, decodeQuanta_encode]

theorem encode_injective {a b : List UInt8} (h : encode a = encode b) : a = b := by
  have ha := decode_encode a
  rw [h, decode_encode] at ha
  cases ha; rfl

end Cryptopuff.Base64
