import GenericUri.Text

/-!
# Error — what can be wrong, and how it is worded

An error is a cause.  `InvalidArgument` blames a value handed to a constructor, `DecodingError` a spot in
percent-encoded text, `Fault` a component of a text being read, and `ParseError` is a fault together with the whole
text.  `PartAbsent` answers a request for a part that is not there, and `NotAscii` a character set operation that is
defined on ASCII only.  The wording of each is its `message`.
-/

namespace GenericUri

/-- The name under which a value or component is blamed. -/
inductive Field
  | octet | hexadectet | port | scheme | userInfo | version | address | segment | query | fragment | text
  deriving DecidableEq

def Field.name : Field → String
  | octet => "octet"
  | hexadectet => "hexadectet"
  | port => "port"
  | scheme => "scheme"
  | userInfo => "user info"
  | version => "version"
  | address => "address"
  | segment => "segment"
  | query => "query"
  | fragment => "fragment"
  | text => "text"

/-- Why text is not percent-encoded as it should be.  Positions count characters from 1. -/
inductive DecodingError
  /-- A `%` that no two hex digits follow. -/
  | malformedEscape (position : Nat)
  /-- A run of escapes, starting at `position`, whose octets are not UTF-8. -/
  | invalidUtf8 (position : Nat)
  /-- A raw character outside the allowed ones. -/
  | illegalCharacter (character : Char) (position : Nat) (allowed : String)
  /-- A `.` or `..` segment, which stands for a step and holds no value. -/
  | dotSegment
  deriving DecidableEq

def DecodingError.message : DecodingError → String
  | malformedEscape position => s!"'%' at position {position} must be followed by two hex digits"
  | invalidUtf8 position => s!"percent-encoded octets starting at position {position} are not UTF-8"
  | illegalCharacter character position allowed =>
    s!"invalid character '{character}' at position {position}; must be {allowed}"
  | dotSegment => "'.' and '..' segments have no value to decode"

/-- What is wrong with an argument. -/
inductive ArgumentFault
  | empty
  | illegalCharacter (position : Nat) (allowed : String)
  | outOfRange (range : String)
  | notEncodable (error : DecodingError)
  deriving DecidableEq

/-- An argument that its constructor refuses. -/
structure InvalidArgument where
  field : Field
  value : Text
  fault : ArgumentFault
  deriving DecidableEq

def InvalidArgument.message (e : InvalidArgument) : String :=
  let field := e.field.name
  let value := String.ofList e.value
  match e.fault with
  | .empty => s!"{field} must contain at least one character"
  | .illegalCharacter position allowed => s!"Character {position} must be {allowed} in {field} [{value}]"
  | .outOfRange range => s!"Argument must be in the range {range} but was [{value}]"
  | .notEncodable error => s!"encoded {field} [{value}] is not valid: {error.message}"

/-- What is wrong with a text that should be a URI, a reference, or one of their components. -/
inductive Fault
  | notUri
  | notRelativeRef
  | notReference
  | scheme (error : InvalidArgument)
  | host (text : Text)
  | port (error : InvalidArgument)
  | encoding (field : Field) (error : DecodingError)
  | number (field : Field) (text : Text)
  deriving DecidableEq

def Fault.message : Fault → String
  | notUri => "not a valid URI"
  | notRelativeRef => "not a valid relative reference"
  | notReference => "neither a valid URI nor a valid relative reference"
  | scheme error => s!"invalid scheme: {error.message}"
  | host text => s!"Not a valid host :{String.ofList text}"
  | port error => s!"invalid port: {error.message}"
  | encoding field error => s!"invalid {field.name}: {error.message}"
  | number field text => s!"invalid {field.name} [{String.ofList text}]"

/-- A fault and the whole text in which it was found. -/
structure ParseError where
  input : Text
  fault : Fault
  deriving DecidableEq

/-- A host that is the whole input is not quoted twice. -/
def ParseError.message (e : ParseError) : String :=
  if e.fault = .host e.input then e.fault.message
  else s!"failed to parse [{String.ofList e.input}]: {e.fault.message}"

/-- The parts that a reference may lack. -/
inductive Part
  | authority | query | fragment
  deriving DecidableEq

def Part.name : Part → String
  | authority => "authority"
  | query => "query"
  | fragment => "fragment"

/-- A part was asked for that the reference does not have. -/
structure PartAbsent where
  part : Part
  deriving DecidableEq

def PartAbsent.message (e : PartAbsent) : String :=
  let part := e.part.name
  s!"attempt to get {part} from a reference without one; check has_{part}() first"

/-- A set operation was given a character beyond ASCII, of which no set keeps single track. -/
inductive NotAscii
  | single | excluded
  deriving DecidableEq

def NotAscii.message : NotAscii → String
  | single => "single-member sets hold ASCII characters only"
  | excluded => "only ASCII characters can be excluded"

end GenericUri
