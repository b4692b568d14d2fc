import GenericUri.IpAddress
import GenericUri.Percent
import GenericUri.Unicode.Lowercase

/-!
# Host — names and addresses

A host is a registered name or an address.  A name is held decoded and in lower case, and one that reads as an address
of version 4 is that address.  Text in brackets is an address of version 6 or of a future version, and nothing else is
tried on it.
-/

namespace GenericUri

inductive Host
  | registeredName (name : Text)
  | ipv4 (ip : Ipv4)
  | ipv6 (groups : Groups 8)
  /-- An address of version 6 whose last two groups are written as one of version 4. -/
  | ipv6Dotted (groups : Groups 6) (last : Ipv4)
  | ipvFuture (version address : Text)
  deriving DecidableEq

namespace Host

/-- The host of a name that is decoded already. -/
def ofName (name : Text) : Host :=
  match Ipv4.ofText? name with
  | some ip => ipv4 ip
  | none => registeredName (Unicode.lowercase name)

/-- An address of a future version: hex digits, held in upper case, and an address, held in lower case. -/
def ofFuture (version address : Text) : Except InvalidArgument Host := do
  if version = [] then throw ⟨.version, version, .empty⟩
  let version := Text.asciiUpper version
  CharSet.hexDigit.verify version .version
  if address = [] then throw ⟨.address, address, .empty⟩
  CharSet.userInfo.verify address .address
  return ipvFuture version (Text.asciiLower address)

def localhost : Host := registeredName ['l', 'o', 'c', 'a', 'l', 'h', 'o', 's', 't']

def loopbackV4 : Host := ipv4 ⟨127, 0, 0, 1⟩

def loopbackV6 : Host := ipv6 ⟨[0, 0, 0, 0, 0, 0, 0, 1], rfl⟩

def unspecifiedV6 : Host := ipv6 ⟨[0, 0, 0, 0, 0, 0, 0, 0], rfl⟩

def ofIpAddress : IpAddress → Host
  | .v4 ip => ipv4 ip
  | .v6 gs => ipv6 gs

/-! ### Reading -/

/-- What may stand between brackets. -/
def ofLiteral? (t : Text) : Option Host :=
  match t with
  | 'v' :: rest | 'V' :: rest => do
    let (version, address) ← Text.cutFirst '.' rest
    (ofFuture version address).toOption
  | _ =>
    if t.contains '.' then (Groups.ofDottedText? t).map fun (gs, last) => ipv6Dotted gs last
    else (Groups.ofText? t).map ipv6

def ofText? (t : Text) : Option Host :=
  match t with
  | '[' :: rest => if rest.getLast? = some ']' then ofLiteral? rest.dropLast else none
  | _ => (Percent.decode .registeredName t).toOption.map ofName

/-! ### Writing and conversion -/

def text : Host → Text
  | registeredName name => Percent.encode .registeredName name
  | ipv4 ip => ip.text
  | ipv6 gs => '[' :: gs.text ++ [']']
  | ipv6Dotted gs last => '[' :: gs.dottedText last ++ [']']
  | ipvFuture version address => '[' :: 'v' :: version ++ '.' :: address ++ [']']

def registeredName? : Host → Option Text
  | registeredName name => some name
  | _ => none

/-- Whether the host is an address rather than a name. -/
def isLiteral (h : Host) : Bool := h.registeredName?.isNone

def toIpAddress? : Host → Option IpAddress
  | ipv4 ip => some (.v4 ip)
  | ipv6 gs => some (.v6 gs)
  | ipv6Dotted gs last => some (.v6 (gs.withLast last))
  | registeredName _ | ipvFuture _ _ => none

def read (t : Text) : Except Fault Host := (ofText? t).elim (.error (.host t)) .ok

instance : Component Host := ⟨read, text⟩

end Host
end GenericUri
