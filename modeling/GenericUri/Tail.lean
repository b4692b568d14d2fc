import GenericUri.Component
import GenericUri.Encoding

/-!
# Tail — query and fragment

The two components that may end a reference obey one grammar and differ in name only.  A tail holds its text in
canonical spelling: escapes keep their place, and their hex digits are in upper case.
-/

namespace GenericUri

inductive TailKind
  | query | fragment
  deriving DecidableEq

def TailKind.field : TailKind → Field
  | query => .query
  | fragment => .fragment

structure Tail (kind : TailKind) where
  text : Text
  deriving DecidableEq

abbrev Query := Tail .query

abbrev Fragment := Tail .fragment

namespace Tail

variable {kind : TailKind}

/-- The tail that stands for `value`. -/
def ofValue (value : Text) : Tail kind := ⟨Percent.encode .queryOrFragment value⟩

/-- The tail with the given escaped text. -/
def ofEncoded (t : Text) : Except InvalidArgument (Tail kind) :=
  ((Percent.canonicalise .queryOrFragment t).map mk).mapError fun e => ⟨kind.field, t, .notEncodable e⟩

def encodeWith {n : Nat} (e : Encoding n) (v : Payload n) : Except InvalidArgument (Tail kind) :=
  ofEncoded (e.encode v)

def decodeWith {n : Nat} (e : Encoding n) (q : Tail kind) : Except DecodingError (Payload n) :=
  e.decode q.text

/-- The text that the tail stands for. -/
def value (q : Tail kind) : Text := Percent.value q.text

def read (t : Text) : Except Fault (Tail kind) :=
  ((Percent.canonicalise .queryOrFragment t).map mk).mapError (.encoding kind.field)

instance : Component (Tail kind) := ⟨read, text⟩

instance : Ord (Tail kind) := ⟨fun a b => compare a.text b.text⟩

end Tail
end GenericUri
