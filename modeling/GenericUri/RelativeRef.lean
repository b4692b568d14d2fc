import GenericUri.Parts

/-!
# RelativeRef — references without a scheme

The text of a relative reference must not be taken for a URI, so without an authority its first segment has no colon.
-/

namespace GenericUri

structure RelativeRef where
  parts : Parts
  deriving DecidableEq

namespace RelativeRef

def text (r : RelativeRef) : Text := r.parts.text .atStart

/-- Whether a colon comes before any slash, `?` or `#`. -/
def startsLikeScheme (t : Text) : Bool :=
  (t.takeWhile fun c => c != '/' && c != '?' && c != '#').contains ':'

def read (t : Text) : Except Fault RelativeRef := do
  let parts ← Parts.read t
  if startsLikeScheme t then throw .notRelativeRef
  return ⟨parts⟩

instance : Component RelativeRef := ⟨read, text⟩

/-- Relative references are ordered by their text. -/
instance : Ord RelativeRef := ⟨fun a b => compare a.text b.text⟩

end RelativeRef
end GenericUri
