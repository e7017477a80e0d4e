/-!
# JSON

* `CodeUnit` : a character of a string, or half of one; `CodeUnit.text?` : the text of a string, if no half
  stands alone;
* `Json` : a value, with the members of an object in the order in which they stand, repeated ones
  too. Of numbers only the natural ones written with nothing but digits keep their value. No setting takes
  another;
* `Json.Token` : a bracket, a separator, or a value without parts;
* `Json.lexString`, `Json.number?` : the inside of a string, a number;
* `Json.token?`, `Json.lex` : the token that begins with a character, the tokens of a text. Blanks may stand
  between them;
* `Json.Frame`, `Json.Expect` : an array or an object that is open, and what may come next. What is open is kept
  on a stack, so nesting has no limit;
* `Json.Expect.step`, `Json.parse?` : one token, the value of a text.
-/

namespace Qpack

/-- A character, or a surrogate: a half of a character beyond U+FFFF, as an escape writes it. -/
inductive CodeUnit where
  | char (c : Char)
  | high (n : Nat)
  | low (n : Nat)
deriving DecidableEq, Repr

namespace CodeUnit

/-- The unit that an escape writes with a number below 65536. -/
def ofNat (n : Nat) : CodeUnit :=
  if 0xD800 ≤ n ∧ n < 0xDC00 then high (n - 0xD800)
  else if 0xDC00 ≤ n ∧ n < 0xE000 then low (n - 0xDC00)
  else char (Char.ofNat n)

/-- The characters of a string. A high half and the low half after it are one character. -/
def chars? : List CodeUnit → Option (List Char)
  | [] => some []
  | char c :: rest => (chars? rest).map (c :: ·)
  | high h :: low l :: rest => (chars? rest).map (Char.ofNat (0x10000 + h * 0x400 + l) :: ·)
  | _ => none

def text? (units : List CodeUnit) : Option String := (chars? units).map String.ofList

end CodeUnit

inductive Json where
  | null
  | bool (b : Bool)
  /-- A number of digits alone. -/
  | natural (n : Nat)
  /-- Any other number. -/
  | number
  | string (units : List CodeUnit)
  | array (items : List Json)
  | object (members : List (List CodeUnit × Json))
deriving Repr

namespace Json

/-- A natural number of at most 64 bits. -/
def word? : Json → Option Nat
  | natural n => if n < UInt64.size then some n else none
  | _ => none

/-- A truth value. -/
def bool? : Json → Option Bool
  | bool b => some b
  | _ => none

end Json
end Qpack

namespace Qpack.Json

inductive Token where
  | openArray
  | closeArray
  | openObject
  | closeObject
  | comma
  | colon
  | scalar (v : Json)
deriving Repr

/-- The characters that may stand between tokens. -/
def isBlank (c : Char) : Bool := c = ' ' || c = '\t' || c = '\n' || c = '\r'

/-! ## Strings -/

/-- The value of a hexadecimal digit. -/
def hexDigit? (c : Char) : Option Nat :=
  if '0' ≤ c ∧ c ≤ '9' then some (c.toNat - 48)
  else if 'a' ≤ c ∧ c ≤ 'f' then some (c.toNat - 87)
  else if 'A' ≤ c ∧ c ≤ 'F' then some (c.toNat - 55)
  else none

/-- The unit that four hexadecimal digits write. -/
def hexUnit? (a b c d : Char) : Option CodeUnit := do
  let high := (← hexDigit? a) * 16 + (← hexDigit? b)
  let low := (← hexDigit? c) * 16 + (← hexDigit? d)
  return .ofNat (high * 256 + low)

/-- The character that a letter behind a backslash stands for. -/
def escaped? (c : Char) : Option Char :=
  if c = '"' ∨ c = '\\' ∨ c = '/' then some c
  else if c = 'b' then some '\x08'
  else if c = 'f' then some '\x0c'
  else if c = 'n' then some '\n'
  else if c = 'r' then some '\r'
  else if c = 't' then some '\t'
  else none

/-- The units of a string whose opening quote has been read, and what follows the closing one. -/
def lexString : List Char → Option (List CodeUnit × List Char)
  | [] => none
  | '"' :: rest => some ([], rest)
  | '\\' :: 'u' :: a :: b :: c :: d :: rest =>
    match hexUnit? a b c d, lexString rest with
    | some unit, some (units, after) => some (unit :: units, after)
    | _, _ => none
  | '\\' :: c :: rest =>
    match escaped? c, lexString rest with
    | some c, some (units, after) => some (.char c :: units, after)
    | _, _ => none
  | c :: rest =>
    if c.toNat < 0x20 then none
    else match lexString rest with
      | some (units, after) => some (.char c :: units, after)
      | none => none

theorem length_of_lexString {cs rest : List Char} {units : List CodeUnit}
    (h : lexString cs = some (units, rest)) : rest.length ≤ cs.length := by
  fun_induction lexString cs generalizing units rest with
  | case1 => cases h
  | case2 => cases h; simp
  | case3 _ _ _ _ _ _ _ _ inner _ ih => cases h; have := ih inner; simp; omega
  | case4 => cases h
  | case5 _ _ _ _ _ _ inner _ ih => cases h; have := ih inner; simp; omega
  | case6 => cases h
  | case7 => cases h
  | case8 _ _ _ _ _ _ _ _ inner ih => cases h; have := ih inner; simp; omega
  | case9 => cases h

/-! ## Numbers -/

/-- The characters that numbers are made of. -/
def isNumeric (c : Char) : Bool := c.isDigit || c = '-' || c = '+' || c = '.' || c = 'e' || c = 'E'

/-- What a digit sequence leaves, if there is a digit at all. -/
def afterDigits? (cs : List Char) : Option (List Char) :=
  if (cs.takeWhile Char.isDigit).isEmpty then none else some (cs.dropWhile Char.isDigit)

/-- What the places after the point leave. They may be missing. -/
def afterFraction? : List Char → Option (List Char)
  | '.' :: rest => afterDigits? rest
  | rest => some rest

/-- What the exponent leaves. It may be missing. -/
def afterExponent? : List Char → Option (List Char)
  | c :: rest =>
    if c = 'e' ∨ c = 'E' then
      match rest with
      | sign :: digits => if sign = '+' ∨ sign = '-' then afterDigits? digits else afterDigits? rest
      | [] => none
    else some (c :: rest)
  | [] => some []

/-- The value of decimal digits. -/
def decimal (digits : List Char) : Nat := digits.foldl (fun n c => 10 * n + (c.toNat - 48)) 0

/-- A number. Only zero itself begins with a zero. -/
def number? (cs : List Char) : Option Json :=
  let (negative, cs) := match cs with
    | '-' :: rest => (true, rest)
    | cs => (false, cs)
  let whole := cs.takeWhile Char.isDigit
  let rest := cs.dropWhile Char.isDigit
  if whole.isEmpty ∨ (whole.head? = some '0' ∧ 1 < whole.length) then none
  else if rest.isEmpty ∧ negative = false then some (.natural (decimal whole))
  else if ((afterFraction? rest).bind afterExponent?).any List.isEmpty then some .number
  else none

/-! ## Tokens -/

/-- The token that begins with `c`, and what follows it. -/
def token? (c : Char) (rest : List Char) : Option (Token × List Char) :=
  match c with
  | '[' => some (.openArray, rest)
  | ']' => some (.closeArray, rest)
  | '\x7b' => some (.openObject, rest)
  | '\x7d' => some (.closeObject, rest)
  | ',' => some (.comma, rest)
  | ':' => some (.colon, rest)
  | '"' => (lexString rest).map fun (units, after) => (.scalar (.string units), after)
  | 'n' =>
    match rest with
    | 'u' :: 'l' :: 'l' :: after => some (.scalar .null, after)
    | _ => none
  | 't' =>
    match rest with
    | 'r' :: 'u' :: 'e' :: after => some (.scalar (.bool true), after)
    | _ => none
  | 'f' =>
    match rest with
    | 'a' :: 'l' :: 's' :: 'e' :: after => some (.scalar (.bool false), after)
    | _ => none
  | c =>
    (number? (c :: rest.takeWhile isNumeric)).map fun v => (.scalar v, rest.dropWhile isNumeric)

theorem length_of_token? {c : Char} {cs rest : List Char} {t : Token}
    (h : token? c cs = some (t, rest)) : rest.length ≤ cs.length := by
  unfold token? at h
  split at h
  · cases h; simp
  · cases h; simp
  · cases h; simp
  · cases h; simp
  · cases h; simp
  · cases h; simp
  · obtain ⟨p, hp, he⟩ := Option.map_eq_some_iff.1 h
    cases he
    exact length_of_lexString hp
  · split at h <;> cases h; simp; omega
  · split at h <;> cases h; simp; omega
  · split at h <;> cases h; simp; omega
  · obtain ⟨v, hv, he⟩ := Option.map_eq_some_iff.1 h
    cases he
    exact (List.dropWhile_sublist _).length_le

def lex : List Char → Option (List Token)
  | [] => some []
  | c :: rest =>
    if isBlank c then lex rest
    else match _left : token? c rest with
      | some (t, after) => (lex after).map (t :: ·)
      | none => none
termination_by cs => cs.length
decreasing_by
  · simp
  · have := length_of_token? _left; simp; omega

/-! ## Values -/

/-- What is open: the items or members so far, last first. A member waits for its value. -/
inductive Frame where
  | array (items : List Json)
  | object (members : List (List CodeUnit × Json)) (key : List CodeUnit)
deriving Repr

inductive Expect where
  /-- A value. -/
  | value (stack : List Frame)
  /-- The first item of an array, or its end. -/
  | firstItem (stack : List Frame)
  /-- The first key of an object, or its end. -/
  | firstKey (stack : List Frame)
  /-- A further key. -/
  | key (members : List (List CodeUnit × Json)) (stack : List Frame)
  /-- The colon behind a key. -/
  | colon (members : List (List CodeUnit × Json)) (key : List CodeUnit) (stack : List Frame)
  /-- A comma or an end, behind a value. -/
  | after (v : Json) (stack : List Frame)
deriving Repr

namespace Expect

/-- A token that begins a value. -/
def begin? (stack : List Frame) : Token → Option Expect
  | .openArray => some (firstItem stack)
  | .openObject => some (firstKey stack)
  | .scalar v => some (after v stack)
  | _ => none

def step : Expect → Token → Option Expect
  | value stack, t => begin? stack t
  | firstItem stack, .closeArray => some (after (.array []) stack)
  | firstItem stack, t => begin? (.array [] :: stack) t
  | firstKey stack, .closeObject => some (after (.object []) stack)
  | firstKey stack, .scalar (.string k) => some (colon [] k stack)
  | key members stack, .scalar (.string k) => some (colon members k stack)
  | colon members k stack, .colon => some (value (.object members k :: stack))
  | after v (.array items :: stack), .comma => some (value (.array (v :: items) :: stack))
  | after v (.array items :: stack), .closeArray => some (after (.array (v :: items).reverse) stack)
  | after v (.object members k :: stack), .comma => some (key ((k, v) :: members) stack)
  | after v (.object members k :: stack), .closeObject =>
    some (after (.object ((k, v) :: members).reverse) stack)
  | _, _ => none

end Expect

def parse? (text : String) : Option Json := do
  let tokens ← lex text.toList
  match ← tokens.foldlM Expect.step (.value []) with
  | .after v [] => some v
  | _ => none

end Qpack.Json
