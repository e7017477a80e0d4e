/-!
# Octet strings

What the wire carries and what field names and values are made of. Where octets are shown, they are read
as UTF-8; what is none is shown as U+FFFD, one for each longest run that begins a character and does not
end it.

* `Octets` : the type; `Octets.ofText` : the UTF-8 octets of a text;
* `Octets.sameLetters` : equality up to the case of ASCII letters;
* `Text.Partial` : a character whose first octets have been read;
* `Text.Lead`, `Text.lead` : what an octet means at the start of a character;
* `Text.step` : one octet more;
* `Text.decodeLossy` : the text of any octet string.
-/

namespace Qpack

abbrev Octets := List UInt8

namespace Octets

def ofText (s : String) : Octets := s.toUTF8.data.toList

/-- The lower-case form of an ASCII capital letter; any other octet is its own. -/
def lower (b : UInt8) : UInt8 := if 65 ≤ b ∧ b ≤ 90 then b + 32 else b

/-- Two octet strings that differ at most in the case of ASCII letters. -/
def sameLetters (a b : Octets) : Bool := a.map lower == b.map lower

end Octets
end Qpack

/-! ## Reading octets as text -/

namespace Qpack.Text

/-- A character of which some octets have been read: its bits so far, how many octets follow, and
the range in which the next of them lies. -/
structure Partial where
  bits : Nat
  missing : Nat
  low : UInt8
  high : UInt8
deriving DecidableEq, Repr

/-- What an octet means at the start of a character. -/
inductive Lead where
  | whole (c : Char)
  | opens (p : Partial)
  | never
deriving DecidableEq, Repr

/-- The replacement character. -/
def replacement : Char := Char.ofNat 0xFFFD

/-- The range of the second octet keeps out forms that are too long (E0, F0), surrogates (ED) and
what lies above U+10FFFF (F4). -/
def lead (b : UInt8) : Lead :=
  let n := b.toNat
  if n < 0x80 then .whole (Char.ofNat n)
  else if n < 0xC2 then .never
  else if n < 0xE0 then .opens ⟨n % 0x20, 1, 0x80, 0xBF⟩
  else if n < 0xF0 then
    .opens ⟨n % 0x10, 2, if n = 0xE0 then 0xA0 else 0x80, if n = 0xED then 0x9F else 0xBF⟩
  else if n < 0xF5 then
    .opens ⟨n % 0x08, 3, if n = 0xF0 then 0x90 else 0x80, if n = 0xF4 then 0x8F else 0xBF⟩
  else .never

/-- The characters that an octet completes at the start of a character, and the character it leaves
open. -/
def start (b : UInt8) : List Char × Option Partial :=
  match lead b with
  | .whole c => ([c], none)
  | .opens p => ([], some p)
  | .never => ([replacement], none)

/-- The characters that one more octet completes. An octet that cannot go on with the open character
ends it as malformed and begins the next one. -/
def step (opened : Option Partial) (b : UInt8) : List Char × Option Partial :=
  match opened with
  | none => start b
  | some p =>
    if p.low ≤ b ∧ b ≤ p.high then
      let bits := p.bits * 64 + b.toNat % 64
      if p.missing ≤ 1 then ([Char.ofNat bits], none)
      else ([], some ⟨bits, p.missing - 1, 0x80, 0xBF⟩)
    else
      let (chars, next) := start b
      (replacement :: chars, next)

/-- The text of the octets that follow, after a character left open. -/
def decodeFrom (opened : Option Partial) : Octets → List Char
  | [] => if opened.isSome then [replacement] else []
  | b :: rest => (step opened b).1 ++ decodeFrom (step opened b).2 rest

def decodeLossy (data : Octets) : String := String.ofList (decodeFrom none data)

end Qpack.Text
