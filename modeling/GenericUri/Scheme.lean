import GenericUri.CharSet
import GenericUri.Component
import GenericUri.Port

/-!
# Scheme — names, and the ports their protocols use by default

A scheme name is held in lower case.  A scheme is a name together with a default port, if its protocol has one; only
the name is ever written.
-/

namespace GenericUri

structure SchemeName where
  text : Text
  deriving DecidableEq

/-- A letter, then letters, digits and `+`, `-` or `.`. -/
def SchemeName.ofText (t : Text) : Except InvalidArgument SchemeName :=
  let illegal (position : Nat) (allowed : CharSet) : Except InvalidArgument SchemeName :=
    .error ⟨.scheme, t, .illegalCharacter position allowed.description⟩
  match t with
  | [] => .error ⟨.scheme, t, .empty⟩
  | c :: rest =>
    if CharSet.alpha.contains c then
      match rest.findIdx? fun c => !CharSet.schemeTrailing.contains c with
      | none => .ok ⟨Text.asciiLower t⟩
      | some i => illegal (i + 2) .schemeTrailing
    else illegal 1 .alpha

structure Scheme where
  name : SchemeName
  defaultPort : Option Port
  deriving DecidableEq

namespace Scheme

/-- The scheme of a name, with a default port or without. -/
def ofName (t : Text) (defaultPort : Option Port) : Except InvalidArgument Scheme :=
  (SchemeName.ofText t).map fun name => ⟨name, defaultPort⟩

def http : Scheme := ⟨⟨['h', 't', 't', 'p']⟩, some (.ofNumber 80)⟩

def https : Scheme := ⟨⟨['h', 't', 't', 'p', 's']⟩, some (.ofNumber 443)⟩

def text (s : Scheme) : Text := s.name.text

def read (t : Text) : Except Fault Scheme := (ofName t none).mapError .scheme

instance : Component Scheme := ⟨read, text⟩

instance : Ord Scheme :=
  ⟨fun a b => (compare a.name.text b.name.text).then (compare a.defaultPort b.defaultPort)⟩

end Scheme
end GenericUri
