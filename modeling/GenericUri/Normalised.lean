import GenericUri.Reference

/-!
# Normalised — references as their scheme would have them

The port that a protocol uses by default need not be written.  A scheme with a default port drops it from the
authorities of the references that are built or read through the scheme.
-/

namespace GenericUri

/-- The authority without the default port. -/
def Scheme.normalise (s : Scheme) (a : Authority) : Authority :=
  match s.defaultPort with
  | some port => a.withoutPortIf port
  | none => a

/-- The parts without the default port. -/
def Scheme.normaliseParts (s : Scheme) (p : Parts) : Parts := p.mapAuthority s.normalise

/-- The URI of a scheme and what follows it. -/
def Uri.ofParts (s : Scheme) (p : Parts) : Uri := ⟨s.name, s.normaliseParts p⟩

def RelativeRef.ofParts (s : Scheme) (p : Parts) : RelativeRef := ⟨s.normaliseParts p⟩

namespace Scheme

/-- A URI as this scheme has it, if it is of the scheme's name. -/
def adopt (s : Scheme) (u : Uri) : Uri := if u.scheme = s.name then .ofParts s u.parts else u

/-- A reference as this scheme has it; a relative one is taken to be of this scheme. -/
def adoptReference (s : Scheme) : Reference → Reference
  | .uri u => .uri (s.adopt u)
  | .relative r => .relative (.ofParts s r.parts)

def parseUri (s : Scheme) (t : Text) : Except ParseError Uri := (parse Uri t).map s.adopt

def parseRelativeRef (s : Scheme) (t : Text) : Except ParseError RelativeRef :=
  (parse RelativeRef t).map fun r => .ofParts s r.parts

def parseReference (s : Scheme) (t : Text) : Except ParseError Reference :=
  (parse Reference t).map s.adoptReference

end Scheme
end GenericUri
