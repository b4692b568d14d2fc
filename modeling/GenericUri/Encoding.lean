import GenericUri.Percent

/-!
# Encoding — values laid out in text

An encoding writes a value as percent-encoded text and reads it back.  At depth 0 the value is a text; each layer of
`delimited` adds a list around it.  A layer that gives a character a meaning first has the layers below escape that
character (`escaping`), so that the character shows raw only where the layer wrote it.
-/

namespace GenericUri

/-- What an encoding of a given depth carries: a text, or a list of what the depth below carries. -/
@[reducible] def Payload : Nat → Type
  | 0 => Text
  | n + 1 => List (Payload n)

inductive Encoding : Nat → Type
  /-- Text, raw where the set allows it. -/
  | percent (allowed : CharSet) : Encoding 0
  /-- Text with `written` for each `plain`. -/
  | substituted (plain written : Char) (inner : Encoding 0) : Encoding 0
  /-- Text, escaped throughout if it is `word`. -/
  | literal (word : Text) (inner : Encoding 0) : Encoding 0
  /-- Text as it is. -/
  | verbatim : Encoding 0
  /-- A list, with `delimiter` between neighbours. -/
  | delimited {n : Nat} (delimiter : Char) (element : Encoding n) : Encoding (n + 1)

namespace Encoding

/-- The encoding that writes an escape wherever this one would write a raw `c` of the value. -/
def escaping (c : Char) : {n : Nat} → Encoding n → Except NotAscii (Encoding n)
  | _, percent allowed => (allowed.excluding c).map percent
  | _, substituted p w inner => (inner.escaping c).map (substituted p w)
  | _, literal word inner => (inner.escaping c).map (literal word)
  | _, verbatim => .ok verbatim
  | _, delimited d element => (element.escaping c).map (delimited d)

/-- Lists of what `element` carries, which is made to escape the delimiter. -/
def delimitedBy (delimiter : Char) {n : Nat} (element : Encoding n) : Except NotAscii (Encoding (n + 1)) :=
  (element.escaping delimiter).map (delimited delimiter)

/-- Text with one character written as another, which `inner` is made to escape. -/
def substituting (plain written : Char) (inner : Encoding 0) : Except NotAscii (Encoding 0) :=
  (inner.escaping written).map (substituted plain written)

def encode : {n : Nat} → Encoding n → Payload n → Text
  | _, percent allowed, v => Percent.encode allowed v
  | _, substituted p w inner, v => Text.join w ((v.splitOn p).map inner.encode)
  | _, literal word inner, v => if v = word then Percent.encode .nothing v else inner.encode v
  | _, verbatim, v => v
  | _, delimited d element, vs => Text.join d (vs.map element.encode)

def decode : {n : Nat} → Encoding n → Text → Except DecodingError (Payload n)
  | _, percent allowed, t => Percent.decode allowed t
  | _, substituted p w inner, t => ((t.splitOn w).mapM inner.decode).map (Text.join p)
  | _, literal _ inner, t => inner.decode t
  | _, verbatim, t => .ok t
  | _, delimited d element, t => (t.splitOn d).mapM element.decode

end Encoding
end GenericUri
