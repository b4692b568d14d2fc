import GenericUri.HierPart
import GenericUri.Tail

/-!
# Parts — hierarchical part, query and fragment

A relative reference consists of these parts, and in a URI they follow the scheme.
-/

namespace GenericUri

structure Parts where
  hier : HierPart
  query : Option Query
  fragment : Option Fragment
  deriving DecidableEq

/-- What a part that may be absent consists of. -/
def Part.Carrier : Part → Type
  | authority => Authority
  | query => Query
  | fragment => Fragment

def Part.text : (part : Part) → part.Carrier → Text
  | authority => Authority.text
  | query => Tail.text
  | fragment => Tail.text

namespace Parts

/-! ### Access and change -/

def get? (p : Parts) : (part : Part) → Option part.Carrier
  | .authority => p.hier.authority?
  | .query => p.query
  | .fragment => p.fragment

def get (p : Parts) (part : Part) : Except PartAbsent part.Carrier :=
  (p.get? part).elim (.error ⟨part⟩) .ok

def mapAuthority (f : Authority → Authority) (p : Parts) : Parts :=
  { p with hier := p.hier.mapAuthority f }

def withPath (path : AbsolutePath) (p : Parts) : Parts := { p with hier := p.hier.withPath path }

def withQuery (query : Option Query) (p : Parts) : Parts := { p with query }

def withFragment (fragment : Option Fragment) (p : Parts) : Parts := { p with fragment }

/-! ### Text -/

/-- The text of the parts; `position` is where they start. -/
def text (position : Position) (p : Parts) : Text :=
  p.hier.text position ++ (p.query.elim [] fun q => '?' :: q.text) ++ p.fragment.elim [] fun f => '#' :: f.text

/-- A fragment reaches from the first `#`, a query from the first `?` before it; they are read in this order, and
before the rest. -/
def read (t : Text) : Except Fault Parts := do
  let (rest, fragmentText) := Text.cutOff '#' t
  let fragment ← fragmentText.mapM Tail.read
  let (hierText, queryText) := Text.cutOff '?' rest
  let query ← queryText.mapM Tail.read
  let hier ← HierPart.read hierText
  return ⟨hier, query, fragment⟩

/-! ### Resolution -/

/-- The parts that a reference with parts `r` means where `base` are the parts at hand.  A reference that is empty up to
its query takes over the query as well. -/
def resolve (base r : Parts) : Parts where
  hier := base.hier.resolve r.hier
  query := if r.hier = .bare .empty then r.query <|> base.query else r.query
  fragment := r.fragment

end Parts
end GenericUri
