import GenericUri.Text

/-!
# Utf8 — text as octets

`decode` is strict: octets are read as a whole or not at all, and `decode_eq_some_iff` says that it accepts
exactly what `encode` writes.  `decodeLossy` reads any octets and makes up for those that are no text.
-/

namespace GenericUri.Utf8

/-- The octets of one character. -/
abbrev encodeChar (c : Char) : List UInt8 := String.utf8EncodeChar c

/-- The octets of a text. -/
def encode (t : Text) : List UInt8 := t.flatMap encodeChar

/-- The text whose octets these are. -/
def decode (bytes : List UInt8) : Option Text :=
  (String.fromUTF8? bytes.toByteArray).map String.toList

/-! ### Octets that are no text -/

/-- The least and the greatest octet that may come second in a character whose first octet is `a`. -/
def secondRange (a : UInt8) : UInt8 × UInt8 :=
  if a = 0xE0 then (0xA0, 0xBF)
  else if a = 0xED then (0x80, 0x9F)
  else if a = 0xF0 then (0x90, 0xBF)
  else if a = 0xF4 then (0x80, 0x8F)
  else (0x80, 0xBF)

/-- How many octets at the front start a character that breaks off after them.  An octet that starts none counts by
itself. -/
def brokenLength : List UInt8 → Nat
  | a :: b :: rest =>
    let (least, greatest) := secondRange a
    if 0xE0 ≤ a ∧ a ≤ 0xF4 ∧ least ≤ b ∧ b ≤ greatest then
      if 0xF0 ≤ a ∧ rest.head?.any fun c => 0x80 ≤ c ∧ c ≤ 0xBF then 3 else 2
    else 1
  | _ => 1

/-- The text of the octets after the first `n`, with U+FFFD for each character that breaks off. -/
def decodeLossyAfter : Nat → List UInt8 → Text
  | _, [] => []
  | n + 1, _ :: bytes => decodeLossyAfter n bytes
  | 0, b :: bytes =>
    match (b :: bytes).toByteArray.utf8DecodeChar? 0 with
    | some c => c :: decodeLossyAfter (c.utf8Size - 1) bytes
    | none => '\uFFFD' :: decodeLossyAfter (brokenLength (b :: bytes) - 1) bytes

/-- The text of any octets, with U+FFFD in place of what is no character. -/
def decodeLossy (bytes : List UInt8) : Text := decodeLossyAfter 0 bytes

/-! ### Laws -/

theorem toByteArray_encode (t : Text) : (encode t).toByteArray = t.utf8Encode := rfl

theorem encode_injective {s t : Text} (h : encode s = encode t) : s = t := by
  have := congrArg List.toByteArray h
  rw [toByteArray_encode, toByteArray_encode, ← String.toByteArray_ofList, ← String.toByteArray_ofList,
    String.toByteArray_inj] at this
  simpa using congrArg String.toList this

@[simp] theorem decode_encode (t : Text) : decode (encode t) = some t := by
  have hv : ByteArray.IsValidUTF8 (encode t).toByteArray := by
    rw [toByteArray_encode]; exact ByteArray.isValidUTF8_utf8Encode
  have hs : String.fromUTF8 (encode t).toByteArray hv = String.ofList t := by
    rw [← String.toByteArray_inj]; simp [toByteArray_encode, String.fromUTF8]
  simp [decode, String.fromUTF8?, hv, hs]

theorem decode_eq_some_iff {bytes : List UInt8} {t : Text} :
    decode bytes = some t ↔ bytes = encode t := by
  refine ⟨fun h => ?_, fun h => h ▸ decode_encode t⟩
  by_cases hv : ByteArray.IsValidUTF8 bytes.toByteArray
  · obtain ⟨s, hs⟩ := id hv
    have hb : bytes = encode s := by
      simpa using congrArg (fun b => b.data.toList) (hs.trans (toByteArray_encode s).symm)
    rw [hb, decode_encode, Option.some.injEq] at h
    rw [hb, h]
  · simp [decode, String.fromUTF8?, hv] at h

@[simp] theorem decode_nil : decode [] = some [] := decode_encode []

theorem decodeLossyAfter_eq_drop (n : Nat) (bytes : List UInt8) :
    decodeLossyAfter n bytes = decodeLossy (bytes.drop n) := by
  induction bytes generalizing n with
  | nil => cases n <;> rfl
  | cons b bytes ih =>
    cases n with
    | zero => rfl
    | succ n => exact ih n

/-- The octets of a character are read as that character, whatever comes after them. -/
theorem decodeLossy_encodeChar_append (c : Char) (bytes : List UInt8) :
    decodeLossy (encodeChar c ++ bytes) = c :: decodeLossy bytes := by
  have hfirst : (encodeChar c ++ bytes).toByteArray.utf8DecodeChar? 0 = some c := by
    rw [List.toByteArray_append]
    exact ByteArray.utf8DecodeChar?_utf8EncodeChar_append
  have hlength : (encodeChar c).length = c.utf8Size := String.length_utf8EncodeChar c
  rcases hc : encodeChar c with _ | ⟨b, rest⟩
  · rw [hc, List.length_nil] at hlength
    exact absurd hlength.symm (Nat.ne_of_gt c.utf8Size_pos)
  · rw [hc, List.cons_append] at hfirst
    rw [hc, List.length_cons] at hlength
    rw [List.cons_append, decodeLossy, decodeLossyAfter, hfirst]
    show c :: decodeLossyAfter (c.utf8Size - 1) (rest ++ bytes) = _
    rw [decodeLossyAfter_eq_drop, ← hlength, Nat.add_sub_cancel, List.drop_left]

/-- Nothing is replaced in the octets of a text. -/
@[simp] theorem decodeLossy_encode (t : Text) : decodeLossy (encode t) = t := by
  induction t with
  | nil => rfl
  | cons c t ih =>
    have hcons : encode (c :: t) = encodeChar c ++ encode t := List.flatMap_cons
    rw [hcons, decodeLossy_encodeChar_append, ih]

end GenericUri.Utf8
