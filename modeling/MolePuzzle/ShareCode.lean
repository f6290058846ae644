import MolePuzzle.Script.Dimensions
import MolePuzzle.Text.Base64
import MolePuzzle.Text.Utf8

/-!
# Share codes

A share code carries a level in a single line of text.  Its four segments, separated by colons, are
the word `mole`, the version of the code, the size of the field, and the bytes of the level text in
base64.

A code is refused unless the bytes are as many rows, each of as many bytes, as its size says.  What
the rows contain is not looked at.
-/

set_option autoImplicit false

namespace MolePuzzle

/-- A level as it is shared: the bytes of its text, and the size of its field. -/
structure ShareCode where
  /-- The size of the field. -/
  size : Size
  /-- The bytes of the level text. -/
  bytes : List UInt8
  deriving DecidableEq, Repr, Inhabited

/-- Why a text is no share code. -/
inductive ShareError where
  /-- There is nothing but white space. -/
  | empty
  | missingVersion
  | missingDimensions
  | missingPayload
  | trailingSegments
  /-- The first segment is this, and not the word for levels. -/
  | unknownDomain (text : List Char)
  /-- The version is this, which is not known. -/
  | unsupportedVersion (text : List Char)
  /-- The third segment is this, which is no size of a field. -/
  | invalidDimensions (text : List Char)
  /-- The last segment is no base64. -/
  | invalidPayload (fault : Text.Base64.Fault)
  /-- The bytes are not laid out as a field of this size. -/
  | dimensionMismatch (size : Size)
  deriving DecidableEq, Repr

namespace ShareError

/-- The text shown for the error. -/
def message : ShareError → String
  | empty => "share code was empty"
  | missingVersion => "share code is missing the version"
  | missingDimensions => "share code is missing the field dimensions"
  | missingPayload => "share code is missing the payload"
  | trailingSegments => "share code has unexpected segments after the payload"
  | unknownDomain text => "share code prefix '" ++ String.ofList text ++ "' is not supported"
  | unsupportedVersion text => "share code version '" ++ String.ofList text ++ "' is not supported"
  | invalidDimensions text => "could not parse field dimensions '" ++ String.ofList text ++ "'"
  | invalidPayload fault => "could not decode share code payload: " ++ fault.message
  | dimensionMismatch size =>
    "payload does not describe a " ++ String.ofList size.text ++ " field"

/-- The texts shown for what led to the error. -/
def causes : ShareError → List String
  | invalidPayload fault => [fault.message]
  | _ => []

end ShareError

namespace ShareCode

/-- The first segment of every code. -/
def domain : List Char := ['m', 'o', 'l', 'e']

/-- The version of the codes that are written and read here. -/
def version : List Char := ['v', '1']

/-- What all codes start with: the first two segments. -/
def header : List Char := domain ++ ':' :: version

/-! ## Writing -/

/-- Writes a share code. -/
def encode (s : ShareCode) : List Char :=
  header ++ ':' :: s.size.text ++ ':' :: Text.Base64.encode s.bytes

/-! ## Reading -/

/-- The size that a segment is the writing of.  A field has cells. -/
def dimensions? (text : List Char) : Option Size :=
  (Script.size? text).filter fun s ↦ !s.isEmpty

/-- The byte that ends a row. -/
def newline : UInt8 := 10

/-- The rows of bytes.  A newline at the very end belongs to the last row. -/
def byteRows (bytes : List UInt8) : List (List UInt8) :=
  Text.split newline (if bytes.getLast? = some newline then bytes.dropLast else bytes)

/-- Are the bytes as many rows, and as many bytes in each, as the size says? -/
def fits (size : Size) (bytes : List UInt8) : Bool :=
  (byteRows bytes).length == size.height.toNat &&
    (byteRows bytes).all fun row ↦ row.length == size.width.toNat

/-- Reads the four segments of a code, in their order. -/
def ofSegments (first second third payload : List Char) : Except ShareError ShareCode := do
  if first ≠ domain then throw (.unknownDomain first)
  if second ≠ version then throw (.unsupportedVersion second)
  match dimensions? third with
  | none => throw (.invalidDimensions third)
  | some size =>
    match Text.Base64.decode (Text.Utf8.encode payload) with
    | .error fault => throw (.invalidPayload fault)
    | .ok bytes => if fits size bytes then return ⟨size, bytes⟩ else throw (.dimensionMismatch size)

/-- Reads a share code.  White space around it is ignored. -/
def decode (text : List Char) : Except ShareError ShareCode :=
  let code := Text.trim text
  if code = [] then .error .empty
  else match Text.split ':' code with
    | [] => .error .missingVersion
    | [_] => .error .missingVersion
    | [_, _] => .error .missingDimensions
    | [_, _, _] => .error .missingPayload
    | [first, second, third, payload] => ofSegments first second third payload
    | _ => .error .trailingSegments

end ShareCode

end MolePuzzle
