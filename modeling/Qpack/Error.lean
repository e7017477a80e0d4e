import Qpack.Text

/-!
# Errors

What can go wrong while encoding, and while the peer's feedback is taken.

* `Error` : the causes;
* `Error.message` : their wording;
* `Error.code` : the HTTP/3 error code that goes on the wire;
* `Error.stream?` : the stream concerned;
* `Error.isFatal` : whether the connection has to end.
-/

namespace Qpack

inductive Error where
  /-- A field name is empty or begins with a control character or a space. -/
  | invalidFieldName (stream : Nat) (name : String)
  /-- Feedback on a stream that waits for none. -/
  | unknownStream (stream : Nat)
  /-- An increment beyond the entries inserted. -/
  | incrementOverrun (known increment inserted : Nat)
  /-- An increment of zero. -/
  | zeroIncrement
  /-- Octets on the decoder stream that are no instruction. -/
  | malformedFeedback (detail : String)
  /-- Octets that are no integer. -/
  | malformedInteger (detail : String)
  /-- The data ends too early. -/
  | incomplete (missing : Nat)
  /-- A capacity that the peer does not allow. -/
  | capacityExceedsMaximum (capacity maximum : Nat)
  /-- Settings that cannot be used, with every problem found. -/
  | invalidSettings (problems : List String)
deriving DecidableEq, Repr

namespace Error

def message : Error → String
  | invalidFieldName stream name => s!"stream {stream}: invalid field name {Text.quoted name}"
  | unknownStream stream => s!"no outstanding field sections for stream {stream}"
  | incrementOverrun known increment inserted =>
    s!"insert count increment {increment} overruns insert count {inserted} (known {known})"
  | zeroIncrement => "insert count increment of zero"
  | malformedFeedback detail => "decoder stream error: " ++ detail
  | malformedInteger detail => "integer encoding error: " ++ detail
  | incomplete missing => s!"incomplete data: need {missing} more bytes"
  | capacityExceedsMaximum capacity maximum => s!"capacity {capacity} exceeds maximum {maximum}"
  | invalidSettings problems =>
    "invalid encoder configuration: " ++ String.intercalate "; " problems

/-- The code of a malformed message. -/
def messageErrorCode : Nat := 0x10E

/-- The code of a fault on the own side. -/
def internalErrorCode : Nat := 0x102

/-- The code of a fault on the decoder stream. -/
def decoderStreamErrorCode : Nat := 0x202

def code : Error → Nat
  | invalidFieldName .. => messageErrorCode
  | capacityExceedsMaximum .. | invalidSettings _ => internalErrorCode
  | _ => decoderStreamErrorCode

def stream? : Error → Option Nat
  | invalidFieldName stream _ | unknownStream stream => some stream
  | _ => none

/-- Only a short read and a misuse on the own side leave the connection usable. -/
def isFatal : Error → Bool
  | incomplete _ | capacityExceedsMaximum .. | invalidSettings _ => false
  | _ => true

end Error
end Qpack
