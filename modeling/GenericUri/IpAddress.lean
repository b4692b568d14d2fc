import GenericUri.Hexadectet
import GenericUri.Octet

/-!
# IpAddress — addresses of version 4 and 6 as text

Version 4 is four octets in decimal between dots.  Version 6 is eight groups in hex between colons, where `::` stands
for the zeros that are missing; writing elides the first longest run of two zero groups or more.  The last two groups
may be written as an address of version 4, in which case the other six stand alone.
-/

namespace GenericUri

/-! ### Version 4 -/

structure Ipv4 where
  a : Octet
  b : Octet
  c : Octet
  d : Octet
  deriving DecidableEq

namespace Ipv4

def octets (ip : Ipv4) : List Octet := [ip.a, ip.b, ip.c, ip.d]

def text (ip : Ipv4) : Text := Text.join '.' (ip.octets.map Octet.text)

def ofOctets? : List Octet → Option Ipv4
  | [a, b, c, d] => some ⟨a, b, c, d⟩
  | _ => none

def ofText? (t : Text) : Option Ipv4 := (t.splitOn '.').mapM Octet.ofText? >>= ofOctets?

end Ipv4

/-! ### Version 6 -/

/-- A given number of 16-bit groups. -/
abbrev Groups (n : Nat) := { gs : List Hexadectet // gs.length = n }

namespace Groups

def ofList? (n : Nat) (gs : List Hexadectet) : Option (Groups n) :=
  if h : gs.length = n then some ⟨gs, h⟩ else none

/-- Groups between colons; no text is no groups. -/
def listOfText? (t : Text) : Option (List Hexadectet) :=
  if t = [] then some [] else (t.splitOn ':').mapM Hexadectet.ofText?

/-- The text before the first `::` and the text after it. -/
def cutElision : Text → Option (Text × Text)
  | [] => none
  | ':' :: ':' :: t => some ([], t)
  | c :: t => (cutElision t).map fun (l, r) => (c :: l, r)

/-- The groups `left` and `right` with as many zeros between them as make `n`, and at least one. -/
def fill? (n : Nat) (left right : List Hexadectet) : Option (Groups n) :=
  if h : left.length + right.length < n then
    some ⟨left ++ List.replicate (n - (left.length + right.length)) 0 ++ right, by simp; omega⟩
  else none

/-- Eight groups, or fewer around one `::`. -/
def ofText? (t : Text) : Option (Groups 8) :=
  match cutElision t with
  | none => listOfText? t >>= ofList? 8
  | some (l, r) =>
    if (cutElision r).isSome then none
    else do fill? 8 (← listOfText? l) (← listOfText? r)

/-- Six groups and an address of version 4 in place of the last two: with `0:0` in that place the text is one of eight
groups. -/
def ofDottedText? (t : Text) : Option (Groups 6 × Ipv4) := do
  let (front, last) ← Text.cutLast ':' t
  let ip ← Ipv4.ofText? last
  let gs ← ofText? (front ++ [':', '0', ':', '0'])
  return (⟨gs.1.take 6, by simp [gs.2]⟩, ip)

def joined (gs : List Hexadectet) : Text := Text.join ':' (gs.map Hexadectet.text)

/-- Start and length of the first among the longest runs of zeros. -/
def longestZeros : List Hexadectet → Nat × Nat
  | [] => (0, 0)
  | g :: gs =>
    let here := ((g :: gs).takeWhile (· == 0)).length
    let (start, length) := longestZeros gs
    if length ≤ here then (0, here) else (start + 1, length)

/-- The groups as text, and whether it ends in an elision. -/
def elided (gs : List Hexadectet) : Text × Bool :=
  let (start, length) := longestZeros gs
  if length < 2 then (joined gs, false)
  else
    let after := gs.drop (start + length)
    (joined (gs.take start) ++ [':', ':'] ++ joined after, after.isEmpty)

def text {n : Nat} (gs : Groups n) : Text := (elided gs.1).1

/-- Six groups followed by an address of version 4. -/
def dottedText (gs : Groups 6) (last : Ipv4) : Text :=
  let (front, ends) := elided gs.1
  front ++ (if ends then [] else [':']) ++ last.text

/-- The eight groups of six and an address of version 4. -/
def withLast (gs : Groups 6) (last : Ipv4) : Groups 8 :=
  ⟨gs.1 ++ [last.a.toUInt16 * 256 + last.b.toUInt16, last.c.toUInt16 * 256 + last.d.toUInt16],
    by simp [gs.2]⟩

end Groups

inductive IpAddress
  | v4 (ip : Ipv4)
  | v6 (groups : Groups 8)
  deriving DecidableEq

end GenericUri
