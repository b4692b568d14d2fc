import GenericUri.DotSegments

/-!
# Path — absolute, rootless or empty

An absolute path starts with `/` and holds no steps.  A rootless path has a first segment without `/` before it, and
its only steps are leading `..`.  Where a path stands decides how it may start: `Position` says so, and a path that
would be misread is written with `./` in front of its first segment.
-/

namespace GenericUri

structure AbsolutePath where
  segments : List Segment
  deriving DecidableEq

structure RootlessPath where
  segments : List Segment
  deriving DecidableEq

inductive Path
  | empty
  | absolute (path : AbsolutePath)
  | rootless (path : RootlessPath)
  deriving DecidableEq

/-- Where a path is written. -/
inductive Position
  /-- After an authority, where any path is unambiguous. -/
  | afterAuthority
  /-- After a scheme, where `//` would start an authority and nothing at all is the empty path. -/
  | afterScheme
  /-- At the start of a reference, where also a colon in the first segment would end a scheme. -/
  | atStart
  deriving DecidableEq

/-- The texts of the segments between slashes. -/
def segmentsText (segments : List Segment) : Text := Text.join '/' (segments.map Segment.text)

/-- The segments between the slashes of a text. -/
def readSegments (t : Text) : Except Fault (List Segment) := (t.splitOn '/').mapM Segment.read

/-! ### Absolute paths -/

namespace AbsolutePath

/-- The absolute path through the segments; a single empty segment is no segment. -/
def ofSegments (segments : List Segment) : AbsolutePath :=
  let rest := DotSegments.remove .dropped segments
  ⟨if rest = [.empty] then [] else rest⟩

/-- The path whose text after the leading slash is `t`. -/
def readAfterSlash (t : Text) : Except Fault AbsolutePath :=
  if t = [] then .ok ⟨[]⟩ else (readSegments t).map ofSegments

def needsMark (position : Position) (p : AbsolutePath) : Bool :=
  position ≠ .afterAuthority && p.segments.head?.any Segment.isEmpty

def text (position : Position) (p : AbsolutePath) : Text :=
  '/' :: (if p.needsMark position then ['.', '/'] else []) ++ segmentsText p.segments

end AbsolutePath

/-! ### Rootless paths -/

namespace RootlessPath

/-- The rootless path through the segments, if there are any. -/
def ofSegments? (segments : List Segment) : Option RootlessPath :=
  if segments = [] then none else some ⟨DotSegments.remove .kept segments⟩

def needsMark (position : Position) (p : RootlessPath) : Bool :=
  match position with
  | .afterAuthority => false
  | .afterScheme => p.segments.head?.any Segment.isEmpty
  | .atStart => p.segments.head?.any fun s => s.isEmpty || s.hasColon

def text (position : Position) (p : RootlessPath) : Text :=
  (if p.needsMark position then ['.', '/'] else []) ++ segmentsText p.segments

/-- The path in place of the last of the base segments.  It stays rootless, and is empty if nothing remains of it. -/
def mergeOnto (base : List Segment) (p : RootlessPath) : Path :=
  let rest := DotSegments.remove .dropped (base.dropLast ++ p.segments)
  if rest = [] ∨ rest = [.empty] then .empty else .rootless ⟨rest⟩

end RootlessPath

/-! ### Paths -/

namespace Path

def ofAbsolute (segments : List Segment) : Path := absolute (.ofSegments segments)

/-- The rootless path through the segments, or the empty path if there are none. -/
def ofRootless (segments : List Segment) : Path := (RootlessPath.ofSegments? segments).elim empty rootless

def segments : Path → List Segment
  | empty => []
  | absolute p => p.segments
  | rootless p => p.segments

def text (position : Position) : Path → Text
  | empty => []
  | absolute p => p.text position
  | rootless p => p.text position

/-- The path that a reference with path `p` means where `base` is the path at hand. -/
def resolve (base p : Path) : Path :=
  match p, base with
  | empty, _ => base
  | absolute _, _ => p
  | rootless r, rootless b => r.mergeOnto b.segments
  | rootless r, _ => ofAbsolute (base.segments.dropLast ++ r.segments)

def read : Text → Except Fault Path
  | [] => .ok empty
  | '/' :: t => (AbsolutePath.readAfterSlash t).map absolute
  | t => (readSegments t).map ofRootless

/-- A path on its own is written as after a scheme. -/
instance : Component Path := ⟨read, text .afterScheme⟩

end Path
end GenericUri
