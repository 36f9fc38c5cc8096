import Cryptopuff.Codec.Hex
import Mathlib.Tactic.IntervalCases

/-!
# JSON text

The text layer of `encoding/json` as the node uses it. `Json.render` is the compact output
of `json.Marshal`, HTML escaping included; `Json.parse` is the syntax pass that
`json.Unmarshal` makes before it decodes into a Go value. `parse_render` is the round trip
that every stored block and every gossiped transaction goes through.

Numbers are integers. Every number the node encodes or decodes is an `int64`; a fraction or
an exponent makes that decode fail in Go, and the parser here refuses it outright. A
surrogate escape (`\uD800` to `\uDFFF`) reads as U+FFFD; Go would combine a valid pair.
-/

namespace Cryptopuff

/-- A JSON value. -/
inductive Json where
  | null
  | bool (b : Bool)
  | num (n : Int)
  | str (s : List Char)
  | arr (elems : List Json)
  | obj (members : List (List Char × Json))

namespace Json

/-! ## Rendering -/

/-- The decimal digits of `n` in front of `acc`; `fuel` bounds the number of digits. -/
def decimalAux : Nat → Nat → List Char → List Char
  | 0, _, acc => acc
  | fuel + 1, n, acc =>
      if n < 10 then Hex.digit n :: acc
      else decimalAux fuel (n / 10) (Hex.digit (n % 10) :: acc)

/-- The decimal digits of `n`, without leading zeros. -/
def decimal (n : Nat) : List Char := decimalAux (n + 1) n []

/-- `strconv.AppendInt(b, n, 10)`, how `json.Marshal` writes an `int64`. -/
def renderInt : Int → List Char
  | .ofNat m => decimal m
  | .negSucc m => '-' :: decimal (m + 1)

/-- The four hex digits of a `\u` escape. -/
def hex4 (n : Nat) : List Char :=
  [Hex.digit (n / 4096 % 16), Hex.digit (n / 256 % 16), Hex.digit (n / 16 % 16),
    Hex.digit (n % 16)]

/-- How `encodeState.string` writes one character of a string, with `escapeHTML` on. -/
def escape (c : Char) : List Char :=
  if c = '"' then ['\\', '"']
  else if c = '\\' then ['\\', '\\']
  else if c = '\n' then ['\\', 'n']
  else if c = '\r' then ['\\', 'r']
  else if c = '\t' then ['\\', 't']
  else if c.toNat < 0x20 ∨ c = '<' ∨ c = '>' ∨ c = '&' ∨ c.toNat = 0x2028 ∨ c.toNat = 0x2029
    then '\\' :: 'u' :: hex4 c.toNat
  else [c]

/-- A string literal. -/
def quote (s : List Char) : List Char := '"' :: (s.flatMap escape ++ ['"'])

mutual
/-- `json.Marshal`'s compact rendering. -/
def render : Json → List Char
  | .null => ['n', 'u', 'l', 'l']
  | .bool true => ['t', 'r', 'u', 'e']
  | .bool false => ['f', 'a', 'l', 's', 'e']
  | .num n => renderInt n
  | .str s => quote s
  | .arr [] => ['[', ']']
  | .arr (e :: es) => '[' :: (render e ++ renderElemsTail es)
  | .obj [] => ['{', '}']
  | .obj ((k, v) :: ms) => '{' :: (quote k ++ ':' :: (render v ++ renderMembersTail ms))

/-- The elements after the first one, closing bracket included. -/
def renderElemsTail : List Json → List Char
  | [] => [']']
  | e :: es => ',' :: (render e ++ renderElemsTail es)

/-- The members after the first one, closing brace included. -/
def renderMembersTail : List (List Char × Json) → List Char
  | [] => ['}']
  | (k, v) :: ms => ',' :: (quote k ++ ':' :: (render v ++ renderMembersTail ms))
end

/-! ## Parsing -/

/-- JSON white space. -/
def isWs (c : Char) : Bool := c = ' ' || c = '\t' || c = '\n' || c = '\r'

/-- Drop leading white space. -/
def skipWs : List Char → List Char
  | [] => []
  | c :: cs => if isWs c then skipWs cs else c :: cs

/-- A decimal digit. -/
def isDigit (c : Char) : Bool := '0' ≤ c && c ≤ '9'

/-- The digits at the head of a text and what follows them. -/
def spanDigits : List Char → List Char × List Char
  | [] => ([], [])
  | c :: cs => if isDigit c then ((c :: (spanDigits cs).1), (spanDigits cs).2) else ([], c :: cs)

/-- The value of a digit string read after the value `acc`. -/
def ofDecimal (acc : Nat) : List Char → Nat
  | [] => acc
  | c :: cs => ofDecimal (10 * acc + (c.toNat - 48)) cs

/-- A number may not run on into a fraction or an exponent. -/
def endsNumber : List Char → Bool
  | c :: _ => !(c = '.' || c = 'e' || c = 'E')
  | [] => true

/-- The digits of a non-negative integer: `0` alone, or a nonzero digit and more. -/
def parseNat (cs : List Char) : Option (Nat × List Char) :=
  match spanDigits cs with
  | ([], _) => none
  | (d :: ds, rest) =>
      if (d = '0' ∧ ds ≠ []) ∨ endsNumber rest = false then none
      else some (ofDecimal 0 (d :: ds), rest)

/-- An integer literal. -/
def parseInt : List Char → Option (Int × List Char)
  | '-' :: cs => (parseNat cs).map fun p => (-(p.1 : Int), p.2)
  | cs => (parseNat cs).map fun p => ((p.1 : Int), p.2)

/-- The character a one-letter escape stands for. -/
def unescape : Char → Option Char
  | '"' => some '"'
  | '\\' => some '\\'
  | '/' => some '/'
  | 'b' => some (Char.ofNat 8)
  | 'f' => some (Char.ofNat 12)
  | 'n' => some '\n'
  | 'r' => some '\r'
  | 't' => some '\t'
  | _ => none

/-- The character of a `\u` escape; a surrogate reads as U+FFFD. -/
def ofCode (code : Nat) : Char :=
  if 0xD800 ≤ code ∧ code < 0xE000 then Char.ofNat 0xFFFD else Char.ofNat code

/-- The body of a string literal after its opening quote, and the text after the closing
quote. A raw control character is refused. -/
def parseString : List Char → Option (List Char × List Char)
  | [] => none
  | '"' :: rest => some ([], rest)
  | '\\' :: 'u' :: a :: b :: c :: d :: rest =>
      match Hex.value a, Hex.value b, Hex.value c, Hex.value d with
      | some a, some b, some c, some d =>
          (parseString rest).map fun p => (ofCode (4096 * a + 256 * b + 16 * c + d) :: p.1, p.2)
      | _, _, _, _ => none
  | '\\' :: e :: rest =>
      match unescape e with
      | some ch => (parseString rest).map fun p => (ch :: p.1, p.2)
      | none => none
  | c :: rest =>
      if c.toNat < 0x20 then none else (parseString rest).map fun p => (c :: p.1, p.2)

mutual
/-- One value at the head of the text, after white space; `fuel` bounds the nesting. -/
def parseValue : Nat → List Char → Option (Json × List Char)
  | 0, _ => none
  | fuel + 1, cs =>
      match skipWs cs with
      | 'n' :: 'u' :: 'l' :: 'l' :: rest => some (.null, rest)
      | 't' :: 'r' :: 'u' :: 'e' :: rest => some (.bool true, rest)
      | 'f' :: 'a' :: 'l' :: 's' :: 'e' :: rest => some (.bool false, rest)
      | '"' :: rest => (parseString rest).map fun p => (.str p.1, p.2)
      | '[' :: rest =>
          match skipWs rest with
          | ']' :: r => some (.arr [], r)
          | _ =>
              match parseValue fuel rest with
              | some (e, r) => (parseElemsTail fuel r).map fun p => (.arr (e :: p.1), p.2)
              | none => none
      | '{' :: rest =>
          match skipWs rest with
          | '}' :: r => some (.obj [], r)
          | _ =>
              match parseMember fuel rest with
              | some (m, r) => (parseMembersTail fuel r).map fun p => (.obj (m :: p.1), p.2)
              | none => none
      | other => (parseInt other).map fun p => (.num p.1, p.2)

/-- `"key": value`, after white space. -/
def parseMember : Nat → List Char → Option ((List Char × Json) × List Char)
  | 0, _ => none
  | fuel + 1, cs =>
      match skipWs cs with
      | '"' :: rest =>
          match parseString rest with
          | some (k, r) =>
              match skipWs r with
              | ':' :: r => (parseValue fuel r).map fun p => ((k, p.1), p.2)
              | _ => none
          | none => none
      | _ => none

/-- After an element: `,` and the next element, or `]`. -/
def parseElemsTail : Nat → List Char → Option (List Json × List Char)
  | 0, _ => none
  | fuel + 1, cs =>
      match skipWs cs with
      | ']' :: r => some ([], r)
      | ',' :: r =>
          match parseValue fuel r with
          | some (e, r) => (parseElemsTail fuel r).map fun p => (e :: p.1, p.2)
          | none => none
      | _ => none

/-- After a member: `,` and the next member, or `}`. -/
def parseMembersTail : Nat → List Char → Option (List (List Char × Json) × List Char)
  | 0, _ => none
  | fuel + 1, cs =>
      match skipWs cs with
      | '}' :: r => some ([], r)
      | ',' :: r =>
          match parseMember fuel r with
          | some (m, r) => (parseMembersTail fuel r).map fun p => (m :: p.1, p.2)
          | none => none
      | _ => none
end

/-- `json.Unmarshal`'s syntax pass: one value and nothing after it but white space. -/
def parse (cs : List Char) : Option Json :=
  match parseValue (cs.length + 1) cs with
  | some (j, rest) => if skipWs rest = [] then some j else none
  | none => none

/-! ## Numbers -/

/-- A decimal digit is a digit. -/
theorem digit_isDigit : ∀ d, d < 10 → isDigit (Hex.digit d) = true := by decide

/-- A decimal digit reads back as its value. -/
theorem digit_toNat : ∀ d, d < 10 → (Hex.digit d).toNat - 48 = d := by decide

theorem digit_ne_zero : ∀ d, d < 10 → 0 < d → Hex.digit d ≠ '0' := by decide

theorem decimalAux_succ (fuel n : Nat) (acc : List Char) :
    decimalAux (fuel + 1) n acc = if n < 10 then Hex.digit n :: acc
      else decimalAux fuel (n / 10) (Hex.digit (n % 10) :: acc) := rfl

theorem ofDecimal_cons (acc : Nat) (c : Char) (cs : List Char) :
    ofDecimal acc (c :: cs) = ofDecimal (10 * acc + (c.toNat - 48)) cs := rfl

/-- Reading the digits `decimalAux` writes in front of `acc` continues from `n`. -/
theorem ofDecimal_decimalAux {fuel n : Nat} (acc : List Char) (h : n < fuel) :
    ofDecimal 0 (decimalAux fuel n acc) = ofDecimal n acc := by
  induction fuel generalizing n acc with
  | zero => omega
  | succ fuel ih =>
      rw [decimalAux_succ]
      by_cases hn : n < 10
      · rw [if_pos hn, ofDecimal_cons, digit_toNat n hn, Nat.mul_zero, Nat.zero_add]
      · rw [if_neg hn, ih _ (by omega), ofDecimal_cons, digit_toNat _ (Nat.mod_lt n (by omega))]
        congr 1; omega

/-- `decimalAux` writes only digits in front of `acc`. -/
theorem mem_decimalAux {fuel n : Nat} {acc : List Char} {c : Char}
    (h : c ∈ decimalAux fuel n acc) : (∃ k, k < 10 ∧ c = Hex.digit k) ∨ c ∈ acc := by
  induction fuel generalizing n acc with
  | zero => exact .inr h
  | succ fuel ih =>
      rw [decimalAux_succ] at h
      by_cases hn : n < 10
      · rw [if_pos hn] at h
        rcases List.mem_cons.1 h with rfl | h
        · exact .inl ⟨n, hn, rfl⟩
        · exact .inr h
      · rw [if_neg hn] at h
        rcases ih h with h | h
        · exact .inl h
        · rcases List.mem_cons.1 h with rfl | h
          · exact .inl ⟨_, Nat.mod_lt n (by omega), rfl⟩
          · exact .inr h

/-- The digits of a positive number do not start with `0`. -/
theorem decimalAux_head {fuel n : Nat} (acc : List Char) (h : n < fuel) (hn : 0 < n) :
    ∃ d ds, decimalAux fuel n acc = d :: ds ∧ d ≠ '0' := by
  induction fuel generalizing n acc with
  | zero => omega
  | succ fuel ih =>
      rw [decimalAux_succ]
      by_cases hn10 : n < 10
      · exact ⟨_, _, by rw [if_pos hn10], digit_ne_zero n hn10 hn⟩
      · rw [if_neg hn10]
        exact ih _ (by omega) (by omega)

/-- The digits of `n` read back as `n`. -/
theorem ofDecimal_decimal (n : Nat) : ofDecimal 0 (decimal n) = n :=
  ofDecimal_decimalAux [] (Nat.lt_succ_self n)

theorem mem_decimal {n : Nat} {c : Char} (h : c ∈ decimal n) : ∃ k, k < 10 ∧ c = Hex.digit k :=
  (mem_decimalAux h).resolve_right (List.not_mem_nil c)

theorem isDigit_of_mem_decimal {n : Nat} {c : Char} (h : c ∈ decimal n) : isDigit c = true := by
  obtain ⟨k, hk, rfl⟩ := mem_decimal h
  exact digit_isDigit k hk

/-- The decimal digits: `0` alone, or a nonzero digit and more. -/
theorem decimal_shape (n : Nat) :
    ∃ k ds, k < 10 ∧ decimal n = Hex.digit k :: ds ∧ (Hex.digit k = '0' → ds = []) := by
  rcases Nat.eq_zero_or_pos n with rfl | hn
  · exact ⟨0, [], by omega, rfl, fun _ => rfl⟩
  · obtain ⟨d, ds, h, hd⟩ := decimalAux_head [] (Nat.lt_succ_self n) hn
    have hmem : d ∈ decimal n := by rw [decimal, h]; exact List.mem_cons_self d ds
    obtain ⟨k, hk, rfl⟩ := mem_decimal hmem
    exact ⟨k, ds, hk, h, fun h => absurd h hd⟩

/-- What may follow a rendered value: the end, a `,`, `]` or `}`, or the newline
`json.Encoder` writes after a value. -/
def Follows (rest : List Char) : Prop :=
  rest = [] ∨ ∃ c r, rest = c :: r ∧ (c = ',' ∨ c = ']' ∨ c = '}' ∨ c = '\n')

/-- The digit run of a number stops where the number ends. -/
theorem spanDigits_append {ds rest : List Char} (hds : ∀ c ∈ ds, isDigit c = true)
    (hr : Follows rest) : spanDigits (ds ++ rest) = (ds, rest) := by
  induction ds with
  | nil =>
      rcases hr with rfl | ⟨c, r, rfl, hc⟩
      · rfl
      · rcases hc with rfl | rfl | rfl | rfl <;> rfl
  | cons d ds ih =>
      have hd := hds d (List.mem_cons_self d ds)
      rw [List.cons_append, spanDigits, if_pos hd,
        ih (fun c hc => hds c (List.mem_cons_of_mem d hc))]

/-- What may follow a value ends a number. -/
theorem endsNumber_of_follows {rest : List Char} (hr : Follows rest) : endsNumber rest = true := by
  rcases hr with rfl | ⟨c, r, rfl, hc⟩
  · rfl
  · rcases hc with rfl | rfl | rfl | rfl <;> rfl

/-- `parseNat` reads back the digits of `n`. -/
theorem parseNat_decimal (n : Nat) {rest : List Char} (hr : Follows rest) :
    parseNat (decimal n ++ rest) = some (n, rest) := by
  obtain ⟨k, ds, -, hshape, hzero⟩ := decimal_shape n
  have hspan := @spanDigits_append (decimal n) _ (fun c hc => isDigit_of_mem_decimal hc) hr
  rw [hshape] at hspan
  have hlead : ¬((Hex.digit k = '0' ∧ ds ≠ []) ∨ endsNumber rest = false) := by
    rw [endsNumber_of_follows hr]
    rintro (⟨h0, hne⟩ | h)
    · exact hne (hzero h0)
    · cases h
  rw [hshape, parseNat, hspan]
  simp only [hlead, ite_false, ← hshape, ofDecimal_decimal]

theorem parseInt_digit (k : Nat) (hk : k < 10) (more : List Char) :
    parseInt (Hex.digit k :: more) = (parseNat (Hex.digit k :: more)).map
      fun p => ((p.1 : Int), p.2) := by
  interval_cases k <;> rfl

/-- `parseInt` reads back a rendered integer, sign included. -/
theorem parseInt_renderInt (n : Int) {rest : List Char} (hr : Follows rest) :
    parseInt (renderInt n ++ rest) = some (n, rest) := by
  cases n with
  | ofNat m =>
      obtain ⟨k, ds, hk, hshape, -⟩ := decimal_shape m
      have hp := parseNat_decimal m hr
      rw [hshape] at hp
      simp only [renderInt, hshape, List.cons_append] at hp ⊢
      rw [parseInt_digit k hk, hp]
      rfl
  | negSucc m =>
      simp only [renderInt, List.cons_append, parseInt, parseNat_decimal _ hr, Option.map_some']
      congr 2

/-! ## Strings -/

/-- A code point below the surrogates reads back as its character. -/
theorem ofCode_toNat (c : Char) (h : c.toNat < 0xD800) : ofCode c.toNat = c := by
  simp only [ofCode, show ¬(0xD800 ≤ c.toNat ∧ c.toNat < 0xE000) by omega, ite_false,
    Char.ofNat_toNat]

/-- One escaped character reads back as itself. -/
theorem parseString_escape (c : Char) (more : List Char) :
    parseString (escape c ++ more) = (parseString more).map fun p => (c :: p.1, p.2) := by
  unfold escape
  by_cases h1 : c = '"'
  · subst h1; rfl
  by_cases h2 : c = '\\'
  · subst h2; rfl
  by_cases h3 : c = '\n'
  · subst h3; rfl
  by_cases h4 : c = '\r'
  · subst h4; rfl
  by_cases h5 : c = '\t'
  · subst h5; rfl
  simp only [if_neg h1, if_neg h2, if_neg h3, if_neg h4, if_neg h5]
  split_ifs with h6
  · have hlt : c.toNat < 0xD800 := by
      rcases h6 with h | h | h | h | h | h
      · omega
      all_goals first | (subst h; decide) | omega
    clear h6
    have hcode : 4096 * (c.toNat / 4096 % 16) + 256 * (c.toNat / 256 % 16) +
        16 * (c.toNat / 16 % 16) + c.toNat % 16 = c.toNat := by omega
    rw [hex4, List.cons_append, List.cons_append, List.cons_append, List.cons_append,
      List.cons_append, List.cons_append, List.nil_append, parseString.eq_3]
    simp only [Hex.value_digit_of_lt _ (Nat.mod_lt _ (by omega : 16 > 0)), hcode, ofCode_toNat c hlt]
  · rw [List.singleton_append, parseString.eq_5 c more h1 (fun _ _ _ _ _ h => absurd h h2)
      (fun _ _ h => absurd h h2), if_neg fun h => h6 (.inl h)]

/-- The body of a rendered string reads back up to its closing quote. -/
theorem parseString_quote (s : List Char) (rest : List Char) :
    parseString (s.flatMap escape ++ '"' :: rest) = some (s, rest) := by
  induction s with
  | nil => rfl
  | cons c s ih =>
      rw [List.flatMap_cons, List.append_assoc, parseString_escape, ih]
      rfl

/-! ## Values -/

mutual
/-- A bound on the fuel the parser spends on a value. -/
def size : Json → Nat
  | .arr [] => 1
  | .arr (e :: es) => 1 + size e + sizeElemsTail es
  | .obj [] => 1
  | .obj ((_, v) :: ms) => 2 + size v + sizeMembersTail ms
  | _ => 1

/-- The fuel `parseElemsTail` spends. -/
def sizeElemsTail : List Json → Nat
  | [] => 1
  | e :: es => 1 + size e + sizeElemsTail es

/-- The fuel `parseMembersTail` spends. -/
def sizeMembersTail : List (List Char × Json) → Nat
  | [] => 1
  | (_, v) :: ms => 2 + size v + sizeMembersTail ms
end

/-- Every value costs some fuel. -/
theorem size_pos (j : Json) : 0 < size j := by
  unfold size
  split <;> omega

/-- The characters a rendered value can start with. -/
def StartsValue (c : Char) : Prop :=
  c = 'n' ∨ c = 't' ∨ c = 'f' ∨ c = '"' ∨ c = '[' ∨ c = '{' ∨ c = '-' ∨ ∃ k, k < 10 ∧ c = Hex.digit k

/-- The first character of a rendered value is not white space and closes nothing. -/
theorem startsValue_facts {c : Char} (h : StartsValue c) :
    isWs c = false ∧ c ≠ ']' ∧ c ≠ '}' := by
  rcases h with rfl | rfl | rfl | rfl | rfl | rfl | rfl | ⟨k, hk, rfl⟩
  all_goals first | decide | (interval_cases k <;> decide)

/-- A rendered value starts with one of the characters of `StartsValue`. -/
theorem render_head (j : Json) : ∃ c cs, render j = c :: cs ∧ StartsValue c := by
  cases j with
  | null => exact ⟨_, _, rfl, .inl rfl⟩
  | bool b => cases b
              · exact ⟨_, _, rfl, .inr (.inr (.inl rfl))⟩
              · exact ⟨_, _, rfl, .inr (.inl rfl)⟩
  | num n =>
      cases n with
      | ofNat m =>
          obtain ⟨k, ds, hk, h, -⟩ := decimal_shape m
          exact ⟨_, ds, h, .inr (.inr (.inr (.inr (.inr (.inr (.inr ⟨k, hk, rfl⟩))))))⟩
      | negSucc m => exact ⟨_, _, rfl, .inr (.inr (.inr (.inr (.inr (.inr (.inl rfl))))))⟩
  | str s => exact ⟨_, _, rfl, .inr (.inr (.inr (.inl rfl)))⟩
  | arr es => cases es <;> exact ⟨_, _, rfl, .inr (.inr (.inr (.inr (.inl rfl))))⟩
  | obj ms => cases ms <;> exact ⟨_, _, rfl, .inr (.inr (.inr (.inr (.inr (.inl rfl)))))⟩

/-- A rendered value starts with no white space. -/
theorem skipWs_render (j : Json) (rest : List Char) :
    skipWs (render j ++ rest) = render j ++ rest := by
  obtain ⟨c, cs, h, hc⟩ := render_head j
  rw [h, List.cons_append, skipWs, if_neg (by simp [(startsValue_facts hc).1])]

/-- What follows an array element is a `,` or `]`. -/
theorem follows_renderElemsTail (es : List Json) (rest : List Char) :
    Follows (renderElemsTail es ++ rest) := by
  cases es <;> exact .inr ⟨_, _, rfl, by simp⟩

/-- What follows an object member is a `,` or `}`. -/
theorem follows_renderMembersTail (ms : List (List Char × Json)) (rest : List Char) :
    Follows (renderMembersTail ms ++ rest) := by
  cases ms <;> exact .inr ⟨_, _, rfl, by simp⟩

/-! ### One equation per head character -/

theorem parseValue_null (fuel : Nat) (rest : List Char) :
    parseValue (fuel + 1) (render .null ++ rest) = some (.null, rest) := rfl

theorem parseValue_true (fuel : Nat) (rest : List Char) :
    parseValue (fuel + 1) (render (.bool true) ++ rest) = some (.bool true, rest) := rfl

theorem parseValue_false (fuel : Nat) (rest : List Char) :
    parseValue (fuel + 1) (render (.bool false) ++ rest) = some (.bool false, rest) := rfl

theorem parseValue_quote (fuel : Nat) (rest : List Char) :
    parseValue (fuel + 1) ('"' :: rest) = (parseString rest).map fun p => (.str p.1, p.2) := rfl

theorem parseValue_bracket (fuel : Nat) (rest : List Char) :
    parseValue (fuel + 1) ('[' :: rest) =
      match skipWs rest with
      | ']' :: r => some (.arr [], r)
      | _ =>
          match parseValue fuel rest with
          | some (e, r) => (parseElemsTail fuel r).map fun p => (.arr (e :: p.1), p.2)
          | none => none := rfl

theorem parseValue_brace (fuel : Nat) (rest : List Char) :
    parseValue (fuel + 1) ('{' :: rest) =
      match skipWs rest with
      | '}' :: r => some (.obj [], r)
      | _ =>
          match parseMember fuel rest with
          | some (m, r) => (parseMembersTail fuel r).map fun p => (.obj (m :: p.1), p.2)
          | none => none := rfl

theorem parseValue_minus (fuel : Nat) (rest : List Char) :
    parseValue (fuel + 1) ('-' :: rest) = (parseInt ('-' :: rest)).map fun p => (.num p.1, p.2) :=
  rfl

theorem parseValue_digit (fuel k : Nat) (hk : k < 10) (rest : List Char) :
    parseValue (fuel + 1) (Hex.digit k :: rest) =
      (parseInt (Hex.digit k :: rest)).map fun p => (.num p.1, p.2) := by
  interval_cases k <;> rfl

theorem parseMember_quote (fuel : Nat) (rest : List Char) :
    parseMember (fuel + 1) ('"' :: rest) =
      match parseString rest with
      | some (k, r) =>
          match skipWs r with
          | ':' :: r => (parseValue fuel r).map fun p => ((k, p.1), p.2)
          | _ => none
      | none => none := rfl

theorem parseElemsTail_close (fuel : Nat) (rest : List Char) :
    parseElemsTail (fuel + 1) (']' :: rest) = some ([], rest) := rfl

theorem parseElemsTail_comma (fuel : Nat) (rest : List Char) :
    parseElemsTail (fuel + 1) (',' :: rest) =
      match parseValue fuel rest with
      | some (e, r) => (parseElemsTail fuel r).map fun p => (e :: p.1, p.2)
      | none => none := rfl

theorem parseMembersTail_close (fuel : Nat) (rest : List Char) :
    parseMembersTail (fuel + 1) ('}' :: rest) = some ([], rest) := rfl

theorem parseMembersTail_comma (fuel : Nat) (rest : List Char) :
    parseMembersTail (fuel + 1) (',' :: rest) =
      match parseMember fuel rest with
      | some (m, r) => (parseMembersTail fuel r).map fun p => (m :: p.1, p.2)
      | none => none := rfl

/-- After `[`, a rendered element is not read as the closing bracket. -/
theorem skipWs_render_ne_close (j : Json) (rest r : List Char) :
    skipWs (render j ++ rest) ≠ ']' :: r ∧ skipWs (render j ++ rest) ≠ '}' :: r := by
  obtain ⟨c, cs, h, hc⟩ := render_head j
  have := startsValue_facts hc
  rw [skipWs_render, h, List.cons_append]
  exact ⟨fun h' => this.2.1 (List.cons.inj h').1, fun h' => this.2.2 (List.cons.inj h').1⟩

theorem skipWs_quote (s rest : List Char) : skipWs (quote s ++ rest) = quote s ++ rest := rfl

theorem skipWs_colon (rest : List Char) : skipWs (':' :: rest) = ':' :: rest := rfl

/-- `parseValue` reads back a rendered integer. -/
theorem parseValue_num (fuel : Nat) (n : Int) (rest : List Char) (hr : Follows rest) :
    parseValue (fuel + 1) (renderInt n ++ rest) = some (.num n, rest) := by
  have hp := parseInt_renderInt n hr
  cases n with
  | ofNat m =>
      obtain ⟨k, ds, hk, hshape, -⟩ := decimal_shape m
      simp only [renderInt, hshape, List.cons_append] at hp ⊢
      rw [parseValue_digit fuel k hk, hp]
      rfl
  | negSucc m =>
      simp only [renderInt, List.cons_append] at hp ⊢
      rw [parseValue_minus, hp]
      rfl

mutual
/-- `parseValue` reads back a rendered value followed by what may follow it, given the fuel `size`
bounds; with `parseElemsTail_render` and `parseMembersTail_render`, by induction on the value. -/
theorem parseValue_render : ∀ (j : Json) (fuel : Nat) (rest : List Char),
    size j ≤ fuel → Follows rest → parseValue fuel (render j ++ rest) = some (j, rest)
  | j, 0, _, h, _ => absurd h (by have := size_pos j; omega)
  | .null, fuel + 1, rest, _, _ => parseValue_null fuel rest
  | .bool true, fuel + 1, rest, _, _ => parseValue_true fuel rest
  | .bool false, fuel + 1, rest, _, _ => parseValue_false fuel rest
  | .num n, fuel + 1, rest, _, hr => parseValue_num fuel n rest hr
  | .str s, fuel + 1, rest, _, _ => by
      simp only [render, quote, List.cons_append, List.append_assoc, List.singleton_append]
      rw [parseValue_quote, parseString_quote]
      rfl
  | .arr [], fuel + 1, rest, _, _ => rfl
  | .arr (e :: es), fuel + 1, rest, h, _ => by
      simp only [size] at h
      simp only [render, List.cons_append, List.append_assoc]
      rw [parseValue_bracket]
      split
      · rename_i r heq; exact absurd heq (skipWs_render_ne_close e _ r).1
      · rw [parseValue_render e fuel _ (by omega) (follows_renderElemsTail es rest)]
        dsimp only
        rw [parseElemsTail_render es fuel rest (by omega)]
        rfl
  | .obj [], fuel + 1, rest, _, _ => rfl
  | .obj ((k, v) :: ms), fuel + 1, rest, h, _ => by
      simp only [size] at h
      obtain ⟨fuel, rfl⟩ : ∃ f, fuel = f + 1 := ⟨fuel - 1, by have := size_pos v; omega⟩
      simp only [render, List.cons_append, List.append_assoc]
      rw [parseValue_brace, skipWs_quote]
      split
      · rename_i r heq; exact absurd (List.cons.inj heq).1 (by decide)
      · simp only [quote, List.cons_append, List.append_assoc, List.singleton_append]
        rw [parseMember_quote, parseString_quote]
        simp only [List.nil_append, skipWs_colon]
        rw [parseValue_render v fuel _ (by omega) (follows_renderMembersTail ms rest)]
        simp only [Option.map_some']
        rw [parseMembersTail_render ms (fuel + 1) rest (by omega)]
        rfl

theorem parseElemsTail_render : ∀ (es : List Json) (fuel : Nat) (rest : List Char),
    sizeElemsTail es ≤ fuel → parseElemsTail fuel (renderElemsTail es ++ rest) = some (es, rest)
  | es, 0, _, h => by cases es <;> simp [sizeElemsTail] at h
  | [], fuel + 1, rest, _ => parseElemsTail_close fuel rest
  | e :: es, fuel + 1, rest, h => by
      simp only [sizeElemsTail] at h
      simp only [renderElemsTail, List.cons_append, List.append_assoc]
      rw [parseElemsTail_comma, parseValue_render e fuel _ (by omega)
          (follows_renderElemsTail es rest)]
      dsimp only
      rw [parseElemsTail_render es fuel rest (by omega)]
      rfl

theorem parseMembersTail_render : ∀ (ms : List (List Char × Json)) (fuel : Nat) (rest : List Char),
    sizeMembersTail ms ≤ fuel → parseMembersTail fuel (renderMembersTail ms ++ rest) = some (ms, rest)
  | ms, 0, _, h => by cases ms <;> simp [sizeMembersTail] at h
  | [], fuel + 1, rest, _ => parseMembersTail_close fuel rest
  | (k, v) :: ms, fuel + 1, rest, h => by
      simp only [sizeMembersTail] at h
      obtain ⟨fuel, rfl⟩ : ∃ f, fuel = f + 1 := ⟨fuel - 1, by have := size_pos v; omega⟩
      simp only [renderMembersTail, quote, List.cons_append, List.append_assoc,
        List.singleton_append]
      rw [parseMembersTail_comma, parseMember_quote, parseString_quote]
      dsimp only
      simp only [List.nil_append, skipWs_colon]
      rw [parseValue_render v fuel _ (by omega) (follows_renderMembersTail ms rest)]
      simp only [Option.map_some']
      rw [parseMembersTail_render ms (fuel + 1) rest (by omega)]
      rfl
end

/-- A quoted string has its two quotes. -/
theorem length_quote (s : List Char) : 2 ≤ (quote s).length := by
  simp [quote]

theorem length_renderInt_pos (n : Int) : 0 < (renderInt n).length := by
  cases n with
  | ofNat m =>
      obtain ⟨k, ds, -, h, -⟩ := decimal_shape m
      simp [renderInt, h]
  | negSucc m => simp [renderInt]

mutual
/-- A value's text is at least as long as the fuel it costs, so the fuel `parse` gives suffices. -/
theorem size_le_length : ∀ j : Json, size j ≤ (render j).length
  | .null | .bool true | .bool false | .arr [] | .obj [] => by simp [size, render]
  | .num n => by simpa [size, render] using length_renderInt_pos n
  | .str s => by have := length_quote s; simp only [size, render]; omega
  | .arr (e :: es) => by
      have := size_le_length e
      have := sizeElemsTail_le_length es
      simp only [size, render, List.length_cons, List.length_append]
      omega
  | .obj ((k, v) :: ms) => by
      have := size_le_length v
      have := sizeMembersTail_le_length ms
      have := length_quote k
      simp only [size, render, List.length_cons, List.length_append]
      omega

theorem sizeElemsTail_le_length : ∀ es : List Json, sizeElemsTail es ≤ (renderElemsTail es).length
  | [] => by simp [sizeElemsTail, renderElemsTail]
  | e :: es => by
      have := size_le_length e
      have := sizeElemsTail_le_length es
      simp only [sizeElemsTail, renderElemsTail, List.length_cons, List.length_append]
      omega

theorem sizeMembersTail_le_length :
    ∀ ms : List (List Char × Json), sizeMembersTail ms ≤ (renderMembersTail ms).length
  | [] => by simp [sizeMembersTail, renderMembersTail]
  | (k, v) :: ms => by
      have := size_le_length v
      have := sizeMembersTail_le_length ms
      have := length_quote k
      simp only [sizeMembersTail, renderMembersTail, List.length_cons, List.length_append]
      omega
end

/-- `json.Unmarshal` reads back what `json.Marshal` wrote. -/
theorem parse_render (j : Json) : parse (render j) = some j := by
  have h := parseValue_render j ((render j).length + 1) []
    (by have := size_le_length j; omega) (.inl rfl)
  rw [List.append_nil] at h
  simp [parse, h, skipWs]

/-- What `json.Encoder.Encode` writes, a value and a newline, parses back to the value. -/
theorem parse_render_newline (j : Json) : parse (render j ++ ['\n']) = some j := by
  have h := parseValue_render j ((render j ++ ['\n']).length + 1) ['\n']
    (by have := size_le_length j; simp; omega) (.inr ⟨_, _, rfl, by simp⟩)
  rw [parse, h]
  rfl

end Json

end Cryptopuff
