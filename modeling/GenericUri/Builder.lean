import GenericUri.Normalised

/-!
# Builder — a URI in steps

A builder starts from a scheme.  It takes at most one authority, then at most one path, absolute after an authority;
query and fragment may be set and cleared at any time.  The stage of a builder says which steps it can take.
-/

namespace GenericUri

/-- How far a builder has come. -/
inductive Stage
  | scheme | authority | path
  deriving DecidableEq

/-- What has been set so far.  The path is empty until one is set. -/
structure Builder (stage : Stage) where
  scheme : Scheme
  authority : Option Authority
  path : Path
  query : Option Query
  fragment : Option Fragment

/-- One step of a builder, from stage to stage. -/
inductive Step : Stage → Stage → Type
  | authority (a : Authority) : Step .scheme .authority
  | path (p : Path) : Step .scheme .path
  | absolutePath (p : AbsolutePath) : Step .authority .path
  | query (q : Option Query) {stage : Stage} : Step stage stage
  | fragment (f : Option Fragment) {stage : Stage} : Step stage stage

namespace Builder

def ofScheme (s : Scheme) : Builder .scheme := ⟨s, none, .empty, none, none⟩

def step {stage next : Stage} (b : Builder stage) : Step stage next → Builder next
  | .authority a => { b with authority := some a }
  | .path p => { b with authority := none, path := p }
  | .absolutePath p => { b with path := .absolute p }
  | .query q => { b with query := q }
  | .fragment f => { b with fragment := f }

/-- What stands between scheme and query.  Only an absolute path can follow an authority; any other is left out. -/
def hier {stage : Stage} (b : Builder stage) : HierPart :=
  match b.authority, b.path with
  | some a, .absolute p => .under a (some p)
  | some a, _ => .under a none
  | none, p => .bare p

/-- The URI of what has been set so far. -/
def build {stage : Stage} (b : Builder stage) : Uri :=
  .ofParts b.scheme ⟨b.hier, b.query, b.fragment⟩

end Builder
end GenericUri
