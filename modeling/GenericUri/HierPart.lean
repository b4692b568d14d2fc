import GenericUri.Authority
import GenericUri.Path

/-!
# HierPart — what stands between scheme and query

Either a path alone, or an authority, which only an absolute path can follow.
-/

namespace GenericUri

inductive HierPart
  | bare (path : Path)
  | under (authority : Authority) (path : Option AbsolutePath)
  deriving DecidableEq

namespace HierPart

def authority? : HierPart → Option Authority
  | bare _ => none
  | under a _ => some a

def path : HierPart → Path
  | bare p => p
  | under _ p => p.elim .empty .absolute

def mapAuthority (f : Authority → Authority) : HierPart → HierPart
  | bare p => bare p
  | under a p => under (f a) p

/-- The part with another path, which is absolute and so fits in either case. -/
def withPath (p : AbsolutePath) : HierPart → HierPart
  | bare _ => bare (.absolute p)
  | under a _ => under a (some p)

/-- The text of the part; `position` is where the part itself stands. -/
def text (position : Position) : HierPart → Text
  | bare p => p.text position
  | under a p => '/' :: '/' :: a.text ++ p.elim [] (AbsolutePath.text .afterAuthority)

/-- An authority reaches from `//` to the next slash. -/
def read (t : Text) : Except Fault HierPart :=
  match t with
  | '/' :: '/' :: rest => do
    let (authorityText, pathText) := Text.cutOff '/' rest
    let a ← Authority.read authorityText
    let p ← pathText.mapM AbsolutePath.readAfterSlash
    return under a p
  | _ => (Path.read t).map bare

/-- The part that a reference with part `r` means where `base` is the part at hand. -/
def resolve (base r : HierPart) : HierPart :=
  match r, base with
  | under _ _, _ => r
  | bare .empty, _ => base
  | bare (.absolute p), _ => base.withPath p
  | bare (.rootless p), bare .empty => bare (p.mergeOnto [])
  | bare (.rootless p), bare b => bare (b.resolve (.rootless p))
  | bare (.rootless p), under a b =>
    under a (some (.ofSegments ((b.elim [] AbsolutePath.segments).dropLast ++ p.segments)))

end HierPart
end GenericUri
