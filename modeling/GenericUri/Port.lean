import GenericUri.CharSet
import GenericUri.Component
import GenericUri.Numeral

/-!
# Port — decimal numerals of any length

A port is the digits after a host, without leading zeros, so that equal numbers have equal text.  No digits at all is
a port too, as in `host:`.
-/

namespace GenericUri

structure Port where
  digits : Text
  deriving DecidableEq

namespace Port

def ofNumber (n : UInt16) : Port := ⟨decimal n.toNat⟩

/-- The port that the digits denote: leading zeros go, but for the last of zeros only. -/
def ofDigits (t : Text) : Except InvalidArgument Port := do
  CharSet.digit.verify t .port
  let rest := t.dropWhile (· == '0')
  return ⟨if rest = [] ∧ t ≠ [] then ['0'] else rest⟩

def isEmpty (p : Port) : Bool := p.digits.isEmpty

/-- The number of the port, if it has one below 65536. -/
def number? (p : Port) : Option UInt16 :=
  if p.digits ≠ [] ∧ decimalValue p.digits < 65536 then some (UInt16.ofNat (decimalValue p.digits))
  else none

def read (t : Text) : Except Fault Port := (ofDigits t).mapError .port

instance : Component Port := ⟨read, digits⟩

instance : Ord Port := ⟨fun a b => compare a.digits b.digits⟩

end Port
end GenericUri
