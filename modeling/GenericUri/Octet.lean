import GenericUri.Component
import GenericUri.Numeral

/-!
# Octet — one number of an address of version 4

An octet is written in decimal.  Reading takes that numeral only, without leading zeros.
-/

namespace GenericUri

abbrev Octet := UInt8

namespace Octet

def text (o : Octet) : Text := decimal o.toNat

/-- One to three digits, the first of several not zero, with a value below 256. -/
def ofText? (t : Text) : Option Octet :=
  if 1 ≤ t.length ∧ t.length ≤ 3 ∧ t.all Char.isDigit ∧ (t.length = 1 ∨ t.head? ≠ some '0') ∧
      decimalValue t < 256 then
    some (UInt8.ofNat (decimalValue t))
  else none

def ofNat? (n : Nat) : Except InvalidArgument Octet :=
  if n < 256 then .ok (UInt8.ofNat n) else .error ⟨.octet, decimal n, .outOfRange "0-255"⟩

def read (t : Text) : Except Fault Octet := (ofText? t).elim (.error (.number .octet t)) .ok

instance : Component Octet := ⟨read, text⟩

end Octet
end GenericUri
