import GenericUri.Component
import GenericUri.Encoding

/-!
# Segment — the pieces of a path

A segment is one of the steps `.` and `..`, or holds a value.  A value is held escaped and without needless escapes;
one that would read as a step is held escaped throughout, so that steps and values never have the same text.
-/

namespace GenericUri

inductive Segment
  | dot
  | dotDot
  | value (text : Text)
  deriving DecidableEq

namespace Segment

def text : Segment → Text
  | dot => ['.']
  | dotDot => ['.', '.']
  | value t => t

def empty : Segment := value []

def isEmpty (s : Segment) : Bool := s = empty

/-- The value segment with a text that is escaped already: the text of a step is escaped throughout. -/
def guarded (t : Text) : Segment :=
  if t = ['.'] ∨ t = ['.', '.'] then value (Percent.encode .nothing t) else value t

/-- The segment that stands for a text. -/
def ofValue (v : Text) : Segment := guarded (Percent.encode .pchar v)

/-- The value segment with the given escaped text. -/
def ofEncoded (t : Text) : Except InvalidArgument Segment :=
  ((Percent.normalise .pchar t).map guarded).mapError fun e => ⟨.segment, t, .notEncodable e⟩

def encodeWith {n : Nat} (e : Encoding n) (v : Payload n) : Except InvalidArgument Segment :=
  ofEncoded (e.encode v)

def decodeWith {n : Nat} (e : Encoding n) : Segment → Except DecodingError (Payload n)
  | value t => e.decode t
  | _ => .error .dotSegment

/-- The text that a value segment stands for. -/
def value? : Segment → Option Text
  | value t => some (Percent.value t)
  | _ => none

/-- Whether a value has a colon in its text. -/
def hasColon : Segment → Bool
  | value t => t.contains ':'
  | _ => false

def read : Text → Except Fault Segment
  | ['.'] => .ok dot
  | ['.', '.'] => .ok dotDot
  | t => ((Percent.normalise .pchar t).map guarded).mapError (.encoding .segment)

instance : Component Segment := ⟨read, text⟩

end Segment
end GenericUri
