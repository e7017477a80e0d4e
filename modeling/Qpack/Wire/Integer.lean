import Qpack.Error
import Qpack.Octets

/-!
# Prefixed integers

An integer shares its first octet with the flags of what it belongs to and has the low `width` bits
of it. A value that these bits cannot hold sets all of them and goes on in groups of seven bits,
least significant first; the high bit of an octet says that another group follows.

* `ones width` : the value of `width` one-bits, where groups begin;
* `groups`, `write` : the octets of a value;
* `Fault` : why octets are no integer;
* `readGroups`, `read` : the value at the front of the octets, and the octets after it;
* `decode` : the value, and how many octets it takes;
* `sumGroups`, `readAny?` : the same for values of any size;
* `Word.ones`, `Word.readGroups`, `Word.read` : a reader that keeps the sum in a word of 64 bits. A shift is
  undone and compared, and a sum is compared with what was added to, before either is used;
* `Word.Stop` : why there is no value: a fault of the octets, or an operation that does not fit a word.
-/

namespace Qpack.Integer

/-- The largest value that may be read: 62 bits. -/
def maximum : Nat := 1 <<< 62 - 1

/-- The value of `width` one-bits. -/
def ones (width : Nat) : Nat := 1 <<< width - 1

/-! ## Writing -/

/-- A value in groups of seven bits, least significant first. -/
def groups (v : Nat) : Octets :=
  if v < 128 then [UInt8.ofNat v] else UInt8.ofNat (128 + v % 128) :: groups (v / 128)

/-- The octets of `v` in the low `width` bits of a first octet with `flags`. -/
def write (width : Nat) (flags : UInt8) (v : Nat) : Octets :=
  if v < ones width then [flags ||| UInt8.ofNat v]
  else (flags ||| UInt8.ofNat (ones width)) :: groups (v - ones width)

/-! ## Reading -/

inductive Fault where
  /-- The width is none of 1 to 8. -/
  | badWidth
  /-- The octets end before the integer does. -/
  | truncated
  /-- More than nine groups. -/
  | overlong
  /-- A value above `maximum`. -/
  | tooLarge
deriving DecidableEq, Repr

/-- The error that a fault is reported as. -/
def Fault.toError : Fault → Error
  | badWidth => .malformedInteger "prefix_bits must be 1-8"
  | truncated => .incomplete 1
  | overlong => .malformedInteger "integer overflow"
  | tooLarge => .malformedInteger "value exceeds maximum (2^62 - 1)"

/-- Adds the groups from the one at `place` on to `sum`. -/
def readGroups (sum place : Nat) : Octets → Except Fault (Nat × Octets)
  | [] => .error .truncated
  | b :: rest =>
    if 8 < place then .error .overlong
    else if maximum < sum + (b.toNat % 128) <<< (7 * place) then .error .tooLarge
    else if b.toNat < 128 then .ok (sum + (b.toNat % 128) <<< (7 * place), rest)
    else readGroups (sum + (b.toNat % 128) <<< (7 * place)) (place + 1) rest

/-- The integer at the front of `data`, in the low `width` bits of the first octet, and what follows
it. -/
def read (width : Nat) (data : Octets) : Except Fault (Nat × Octets) :=
  if width = 0 ∨ 8 < width then .error .badWidth
  else match data with
    | [] => .error .truncated
    | b :: rest =>
      if b.toNat % 1 <<< width < ones width then .ok (b.toNat % 1 <<< width, rest)
      else readGroups (b.toNat % 1 <<< width) 0 rest

/-- The integer at the front of `data`, and how many octets it has, or the error to report. -/
def decode (width : Nat) (data : Octets) : Except Error (Nat × Nat) :=
  match read width data with
  | .error fault => .error fault.toError
  | .ok (v, rest) => .ok (v, data.length - rest.length)

/-! ## Reading values of any size -/

/-- Adds the groups from the one at `place` on to `sum`, however many there are. -/
def sumGroups (sum place : Nat) : Octets → Option (Nat × Octets)
  | [] => none
  | b :: rest =>
    if b.toNat < 128 then some (sum + (b.toNat % 128) <<< (7 * place), rest)
    else sumGroups (sum + (b.toNat % 128) <<< (7 * place)) (place + 1) rest

/-- The integer at the front of octets, of any size (RFC 7541, Section 5.1), and what follows it. -/
def readAny? (width : Nat) : Octets → Option (Nat × Octets)
  | [] => none
  | b :: rest =>
    if b.toNat % 1 <<< width < ones width then some (b.toNat % 1 <<< width, rest)
    else sumGroups (b.toNat % 1 <<< width) 0 rest

/-! ## What reading leaves -/

theorem length_of_readGroups {sum place : Nat} {data rest : Octets} {v : Nat}
    (h : readGroups sum place data = .ok (v, rest)) : rest.length < data.length := by
  induction data generalizing sum place with
  | nil => simp [readGroups] at h
  | cons b tail ih =>
    simp only [readGroups] at h
    split at h
    · cases h
    · split at h
      · cases h
      · split at h
        · cases h; simp
        · have := ih h; simp; omega

/-- An integer has at least one octet. -/
theorem length_of_read {width : Nat} {data rest : Octets} {v : Nat}
    (h : read width data = .ok (v, rest)) : rest.length < data.length := by
  unfold read at h
  split at h
  · cases h
  · cases data with
    | nil => cases h
    | cons b tail =>
      simp only at h
      split at h
      · cases h; simp
      · have := length_of_readGroups h; simp; omega

theorem length_of_read_toOption {width : Nat} {data rest : Octets} {v : Nat}
    (h : (read width data).toOption = some (v, rest)) : rest.length < data.length := by
  cases hr : read width data with
  | error fault => rw [hr] at h; cases h
  | ok p => rw [hr] at h; cases h; exact length_of_read hr

end Qpack.Integer

/-! ## In 64-bit words -/

namespace Qpack.Integer.Word

inductive Stop where
  /-- The octets are no integer. -/
  | fault (fault : Fault)
  /-- A shift has lost bits. -/
  | shift
  /-- A sum has wrapped around. -/
  | sum
deriving DecidableEq, Repr

/-- The word of `width` one-bits. -/
def ones (width : Nat) : UInt64 := 1 <<< UInt64.ofNat width - 1

/-- Adds groups to `sum`, moving up the first of them by `shift` bits. -/
def readGroups (sum : UInt64) (shift : Nat) : Octets → Except Stop (UInt64 × Octets)
  | [] => .error (.fault .truncated)
  | b :: rest =>
    let group := (b &&& 0x7F).toUInt64
    let moved := group <<< UInt64.ofNat shift
    if 56 < shift then .error (.fault .overlong)
    else if moved >>> UInt64.ofNat shift ≠ group then .error .shift
    else if sum + moved < sum then .error .sum
    else if UInt64.ofNat maximum < sum + moved then .error (.fault .tooLarge)
    else if b &&& 0x80 = 0 then .ok (sum + moved, rest)
    else readGroups (sum + moved) (shift + 7) rest

/-- The integer at the front of `data`, in the low `width` bits of the first octet, and what follows
it. -/
def read (width : Nat) (data : Octets) : Except Stop (UInt64 × Octets) :=
  if width = 0 ∨ 8 < width then .error (.fault .badWidth)
  else match data with
    | [] => .error (.fault .truncated)
    | b :: rest =>
      if b.toUInt64 &&& ones width < ones width then .ok (b.toUInt64 &&& ones width, rest)
      else readGroups (b.toUInt64 &&& ones width) 0 rest

end Qpack.Integer.Word
