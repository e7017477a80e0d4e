import Qpack.Json
import Qpack.Settings

/-!
# Settings as text

Settings are written as a JSON object. A member that is missing has its default; one that is no
setting is passed over.

* `member?` : the one value of a member;
* `Settings.ofJson?`, `Settings.ofText?` : the settings of a value, of a text.
-/

namespace Qpack

/-- The value of a member that may be missing, but not stand there twice. -/
def member? {α : Type} (members : List (String × Json)) (key : String) (default : α)
    (read? : Json → Option α) : Option α :=
  match members.filter (·.1 == key) with
  | [] => some default
  | [(_, v)] => read? v
  | _ => none

namespace Settings

def ofJson? : Json → Option Settings
  | .object members => do
    let members ← members.mapM fun (key, v) => (CodeUnit.text? key).map (·, v)
    let word key other := member? members key other Json.word?
    let truth key other := member? members key other Json.bool?
    let maxTableCapacity ← word "max_table_capacity" default.maxTableCapacity
    let maxBlockedStreams ← word "max_blocked_streams" default.maxBlockedStreams
    let drainingPercent ← word "draining_percent" default.drainingPercent
    let validateFieldNames ← truth "validate_field_names" default.validateFieldNames
    let huffman ← truth "huffman" default.huffman
    return { maxTableCapacity, maxBlockedStreams, drainingPercent, validateFieldNames, huffman }
  | _ => none

def ofText? (text : String) : Option Settings := (Json.parse? text).bind ofJson?

end Settings
end Qpack
