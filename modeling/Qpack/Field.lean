import Qpack.Octets
import Qpack.Text

/-!
# Fields

* `Field` : a name and a value;
* `Field.size` : the room a field takes in a dynamic table;
* `Field.hasValidName` : what the name of a field has to be like;
* `Field.display` : a field as a reader may see it.

A value that was once put into the dynamic table stays there for all streams of the connection, and
compression makes its length visible. A policy says which fields that is acceptable for.

* `Policy` : the three answers for each field;
* `Policy.standard` : the answers by name, from the lists `unindexed`, `neverIndexed` and `uncoded`;
* `Policy.uniform` : the same answers for all fields.
-/

namespace Qpack

structure Field where
  name : Octets
  value : Octets
deriving DecidableEq, Repr

namespace Field

/-- A field whose name and value are given as text. -/
def ofText (name value : String) : Field := ⟨.ofText name, .ofText value⟩

/-- What an entry takes besides its name and value. -/
def overhead : Nat := 32

/-- The room that a name and a value take in a dynamic table. -/
def entrySize (name value : Octets) : Nat := name.length + value.length + overhead

/-- The room that a field takes in a dynamic table. -/
def size (f : Field) : Nat := entrySize f.name f.value

/-- Whether the name has a first octet, and one above the controls and the space. -/
def hasValidName (f : Field) : Bool := f.name.head?.any (0x20 < ·)

/-- A field with its name and value as quoted text. -/
def display (f : Field) : String :=
  "HeaderField(" ++ Text.quoted (Text.decodeLossy f.name) ++ ": "
    ++ Text.quoted (Text.decodeLossy f.value) ++ ")"

end Field

/-! ## Policies -/

structure Policy where
  /-- Whether the field may enter the dynamic table. -/
  mayIndex : Field → Bool
  /-- Whether the field line forbids everyone on its way to index the field. -/
  neverIndex : Field → Bool
  /-- Whether the name and the value may be Huffman coded. -/
  mayHuffman : Field → Bool

namespace Policy

def unindexed : List String :=
  ["authorization", "content-md5", "content-range", "etag", "if-modified-since",
    "if-unmodified-since", "if-none-match", "if-range", "if-match", "location", "range", "retry-after",
    "last-modified", "set-cookie", "set-cookie2"]

def neverIndexed : List String := ["authorization", "set-cookie", "set-cookie2"]

/-- The names of fields that are never Huffman coded. -/
def uncoded : List String :=
  ["authorization", "content-md5", "proxy-authenticate", "proxy-authorization"]

/-- Whether a name is on a list, up to the case of its letters. -/
def isListed (names : List String) (name : Octets) : Bool :=
  names.any fun s => (Octets.ofText s).sameLetters name

/-- The answers by name; `huffman` allows Huffman coding at all. -/
def standard (huffman : Bool) : Policy where
  mayIndex f := !isListed unindexed f.name
  neverIndex f := isListed neverIndexed f.name
  mayHuffman f := huffman && !isListed uncoded f.name

instance : Inhabited Policy := ⟨standard true⟩

def uniform (index never huffman : Bool) : Policy where
  mayIndex _ := index
  neverIndex _ := never
  mayHuffman _ := huffman

end Policy
end Qpack
