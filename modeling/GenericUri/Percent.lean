import GenericUri.CharSet
import GenericUri.Numeral
import GenericUri.Utf8

/-!
# Percent — text written with escapes

Given a set of characters allowed raw, `encode` writes every other character, and always `%`, as the escapes of its
UTF-8 octets.  Reading goes by way of `tokens`: raw characters, escaped octets, and a `%` that starts no escape.
`decode` puts the octets of each run of escapes together and reports the first spot that does not fit.

Text that decodes has two tidied spellings with the same meaning: `canonicalise` writes hex digits in upper case, and
`normalise` also writes escaped unreserved characters raw.  `decode_encode`: what is written is read back, over any set.

`value` reads text that is kept in one of these spellings; it rejects nothing.
-/

namespace GenericUri.Percent

/-- One symbol of escaped text. -/
inductive Token
  | raw (c : Char)
  | octet (b : UInt8)
  /-- A `%` that no two hex digits follow. -/
  | stray
  deriving DecidableEq

/-- The digit of a value below 16, in upper case. -/
def hexDigit (n : Nat) : Char := (Nat.digitChar n).toUpper

/-- The escape of an octet. -/
def escape (b : UInt8) : Text := ['%', hexDigit (b.toNat / 16), hexDigit (b.toNat % 16)]

/-! ### Writing -/

def encodeChar (allowed : CharSet) (c : Char) : Text :=
  if c ≠ '%' ∧ allowed.contains c then [c] else (Utf8.encodeChar c).flatMap escape

def encode (allowed : CharSet) (t : Text) : Text := t.flatMap (encodeChar allowed)

/-! ### Reading -/

/-- The symbols of `t`, in order. -/
def tokens : Text → List Token
  | [] => []
  | '%' :: h :: l :: t =>
    match hexValue? h, hexValue? l with
    | some a, some b => .octet (UInt8.ofNat (16 * a + b)) :: tokens t
    | _, _ => .stray :: tokens (h :: l :: t)
  | c :: t => (if c = '%' then .stray else .raw c) :: tokens t

/-- The text of the octets of a run of escapes that ends before `position`. -/
def closeRun (position : Nat) (run : List UInt8) : Except DecodingError Text :=
  match Utf8.decode run with
  | some t => .ok t
  | none => .error (.invalidUtf8 (position - 3 * run.length))

/-- Reads the symbols from `position` on, after the escapes of `run`. -/
def decodeTokens (allowed : CharSet) (position : Nat) (run : List UInt8) :
    List Token → Except DecodingError Text
  | [] => closeRun position run
  | .stray :: _ => .error (.malformedEscape position)
  | .octet b :: ts => decodeTokens allowed (position + 3) (run ++ [b]) ts
  | .raw c :: ts => do
    let front ← closeRun position run
    if allowed.contains c then
      let back ← decodeTokens allowed (position + 1) [] ts
      return front ++ c :: back
    else
      throw (.illegalCharacter c position allowed.description)

def decode (allowed : CharSet) (t : Text) : Except DecodingError Text :=
  decodeTokens allowed 1 [] (tokens t)

/-! ### Tidied spellings -/

/-- A symbol as it was written, but for the case of hex digits. -/
def Token.text : Token → Text
  | raw c => [c]
  | octet b => escape b
  | stray => ['%']

/-- A symbol without needless escape: unreserved characters are written raw. -/
def Token.plainText : Token → Text
  | octet b =>
    let c := Char.ofNat b.toNat
    if CharSet.unreserved.contains c then [c] else escape b
  | t => t.text

/-- The text with the hex digits of its escapes in upper case, if it decodes. -/
def canonicalise (allowed : CharSet) (t : Text) : Except DecodingError Text :=
  (decode allowed t).map fun _ => (tokens t).flatMap Token.text

/-- The text without needless escapes and with hex digits in upper case, if it decodes. -/
def normalise (allowed : CharSet) (t : Text) : Except DecodingError Text :=
  (decode allowed t).map fun _ => (tokens t).flatMap Token.plainText

/-! ### Reading without checks -/

/-- The octet that two characters after a `%` are taken for: two hex digits, or a plus sign and one. -/
def looseOctet? (h l : Char) : Option UInt8 := do
  let a ← if h = '+' then some 0 else hexValue? h
  let b ← hexValue? l
  return UInt8.ofNat (16 * a + b)

/-- The octets of a text, of which a `%` that no octet follows is one. -/
def looseOctets : Text → List UInt8
  | [] => []
  | '%' :: h :: l :: t =>
    match looseOctet? h l with
    | some b => b :: looseOctets t
    | none => Utf8.encodeChar '%' ++ looseOctets (h :: l :: t)
  | c :: t => Utf8.encodeChar c ++ looseOctets t

/-- What can be made out of a text, well-formed or not. -/
def decodeLossy (t : Text) : Text := Utf8.decodeLossy (looseOctets t)

/-- The text that a canonical spelling stands for, whatever set it was written over.  Text that is no spelling is made
out as far as it can be. -/
def value (t : Text) : Text :=
  match decode CharSet.everything t with
  | .ok s => s
  | .error _ => decodeLossy t

/-! ### Laws of symbols -/

theorem hexValue?_hexDigit {n : Nat} (h : n < 16) : hexValue? (hexDigit n) = some n := by
  have : ∀ n < 16, hexValue? (hexDigit n) = some n := by decide
  exact this n h

@[simp] theorem tokens_escape (b : UInt8) (t : Text) : tokens (escape b ++ t) = .octet b :: tokens t := by
  have hb : b.toNat < 256 := b.toNat_lt
  have hv : UInt8.ofNat (16 * (b.toNat / 16) + b.toNat % 16) = b := by
    rw [Nat.div_add_mod, UInt8.ofNat_toNat]
  simp only [escape, List.cons_append, List.nil_append, tokens,
    hexValue?_hexDigit (show b.toNat / 16 < 16 by omega), hexValue?_hexDigit (show b.toNat % 16 < 16 by omega), hv]

theorem tokens_raw {c : Char} (h : c ≠ '%') (t : Text) : tokens (c :: t) = .raw c :: tokens t := by
  rw [tokens.eq_def]
  split
  all_goals simp_all

theorem tokens_escapes (bs : List UInt8) (t : Text) :
    tokens (bs.flatMap escape ++ t) = bs.map .octet ++ tokens t := by
  induction bs with
  | nil => rfl
  | cons b bs ih => simp [ih]

theorem decodeTokens_octets (allowed : CharSet) (position : Nat) (run bs : List UInt8) (ts : List Token) :
    decodeTokens allowed position run (bs.map .octet ++ ts) =
      decodeTokens allowed (position + 3 * bs.length) (run ++ bs) ts := by
  induction bs generalizing position run with
  | nil => simp
  | cons b bs ih =>
    simp only [List.map_cons, List.cons_append, decodeTokens, ih, List.length_cons, List.append_assoc,
      List.nil_append]
    congr 1
    omega

theorem closeRun_encode (position : Nat) (s : Text) : closeRun position (Utf8.encode s) = .ok s := by
  simp [closeRun]

theorem decodeTokens_encode (allowed : CharSet) (position : Nat) (s t : Text) :
    decodeTokens allowed position (Utf8.encode s) (tokens (encode allowed t)) = .ok (s ++ t) := by
  induction t generalizing position s with
  | nil => simp [encode, tokens, decodeTokens, closeRun_encode]
  | cons c t ih =>
    by_cases h : c ≠ '%' ∧ allowed.contains c
    · have hc : encode allowed (c :: t) = c :: encode allowed t := by simp [encode, encodeChar, h]
      have ht := ih (position + 1) []
      simp only [Utf8.encode, List.flatMap_nil, List.nil_append] at ht
      rw [hc, tokens_raw h.1, decodeTokens, closeRun_encode]
      simp [ht, h.2, bind, Except.bind, pure, Except.pure]
    · have hc : encode allowed (c :: t) = (Utf8.encodeChar c).flatMap escape ++ encode allowed t := by
        simp [encode, encodeChar, h]
      have hs : Utf8.encode s ++ Utf8.encodeChar c = Utf8.encode (s ++ [c]) := by simp [Utf8.encode]
      rw [hc, tokens_escapes, decodeTokens_octets, hs, ih]
      simp

/-- What is written over a set is read back over it. -/
@[simp] theorem decode_encode (allowed : CharSet) (t : Text) : decode allowed (encode allowed t) = .ok t := by
  simpa [decode, Utf8.encode] using decodeTokens_encode allowed 1 [] t

end GenericUri.Percent
