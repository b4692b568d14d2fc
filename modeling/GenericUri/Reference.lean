import GenericUri.RelativeRef
import GenericUri.Uri

/-!
# Reference — a URI or a relative reference

Which of the two a text is shows at its start: a URI starts with a scheme name and a colon.  `Uri.resolve` tells which
URI a reference means where another URI is at hand.
-/

namespace GenericUri

inductive Reference
  | uri (u : Uri)
  | relative (r : RelativeRef)
  deriving DecidableEq

namespace Reference

def parts : Reference → Parts
  | uri u => u.parts
  | relative r => r.parts

def text : Reference → Text
  | uri u => u.text
  | relative r => r.text

/-- Whether a text starts with a scheme name and a colon. -/
def hasScheme (t : Text) : Bool :=
  match Uri.cutScheme t with
  | some (name, _) => (SchemeName.ofText name).isOk
  | none => false

/-- What is wrong with a text that may be a URI as well as a relative reference. -/
def widen : Fault → Fault
  | .notRelativeRef => .notReference
  | fault => fault

def read (t : Text) : Except Fault Reference :=
  if hasScheme t then (Uri.read t).map uri else ((RelativeRef.read t).map relative).mapError widen

instance : Component Reference := ⟨read, text⟩

/-- A URI comes before any relative reference. -/
instance : Ord Reference where
  compare
    | uri a, uri b => compare a b
    | relative a, relative b => compare a b
    | uri _, relative _ => .lt
    | relative _, uri _ => .gt

end Reference

/-- The URI that a reference means where `base` is the URI at hand. -/
def Uri.resolve (base : Uri) : Reference → Uri
  | .uri u => u
  | .relative r => { base with parts := base.parts.resolve r.parts }

end GenericUri
