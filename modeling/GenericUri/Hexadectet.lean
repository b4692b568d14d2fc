import GenericUri.Component
import GenericUri.Numeral

/-!
# Hexadectet — one group of an address of version 6

Sixteen bits, written in lower-case hex without leading zeros.  Reading takes up to four hex digits of either case.
-/

namespace GenericUri

abbrev Hexadectet := UInt16

namespace Hexadectet

def text (g : Hexadectet) : Text := hex g.toNat

/-- One to four hex digits. -/
def ofText? (t : Text) : Option Hexadectet :=
  if 1 ≤ t.length ∧ t.length ≤ 4 then
    (t.mapM hexValue?).map fun ds => UInt16.ofNat (hexNumber ds)
  else none

def ofNat? (n : Nat) : Except InvalidArgument Hexadectet :=
  if n < 65536 then .ok (UInt16.ofNat n)
  else .error ⟨.hexadectet, '0' :: 'x' :: Text.asciiUpper (hex n), .outOfRange "0x0-0xFFFF"⟩

def read (t : Text) : Except Fault Hexadectet := (ofText? t).elim (.error (.number .hexadectet t)) .ok

instance : Component Hexadectet := ⟨read, text⟩

end Hexadectet
end GenericUri
