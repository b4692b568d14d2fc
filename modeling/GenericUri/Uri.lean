import GenericUri.Parts
import GenericUri.Scheme

/-!
# Uri — a scheme and what follows it

A URI holds the name of its scheme.  What the scheme has as default port is not part of the URI.
-/

namespace GenericUri

structure Uri where
  scheme : SchemeName
  parts : Parts
  deriving DecidableEq

namespace Uri

def text (u : Uri) : Text := u.scheme.text ++ ':' :: u.parts.text .afterScheme

/-- The text before a colon that comes before any slash, `?` or `#`, and the text after the colon. -/
def cutScheme (t : Text) : Option (Text × Text) :=
  match t.span fun c => c != ':' && c != '/' && c != '?' && c != '#' with
  | (name, ':' :: rest) => some (name, rest)
  | _ => none

def read (t : Text) : Except Fault Uri :=
  match cutScheme t with
  | none | some ([], _) => .error .notUri
  | some (name, rest) => do
    let scheme ← (SchemeName.ofText name).mapError .scheme
    let parts ← Parts.read rest
    return ⟨scheme, parts⟩

instance : Component Uri := ⟨read, text⟩

/-- URIs are ordered by their text. -/
instance : Ord Uri := ⟨fun a b => compare a.text b.text⟩

end Uri
end GenericUri
