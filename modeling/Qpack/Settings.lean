import Qpack.Error
import Qpack.Field

/-!
# Settings

* `Settings` : what the peer's decoder allows, and how the encoder makes use of it;
* `Settings.default`, `Settings.staticOnly`, `Settings.highThroughput` : common choices;
* `Settings.Problem`, `Settings.problems` : why settings cannot be used.
-/

namespace Qpack

structure Settings where
  /-- The largest table capacity that the peer allows. -/
  maxTableCapacity : Nat
  /-- How many streams the peer allows to block. -/
  maxBlockedStreams : Nat
  /-- The share of the capacity, in percent, that draining keeps free. -/
  drainingPercent : Nat
  /-- Whether fields are refused whose name is empty or begins with a control character or a space.
  -/
  validateFieldNames : Bool
  /-- Whether strings are Huffman coded where that makes them shorter. -/
  huffman : Bool
deriving DecidableEq, Repr

namespace Settings

def default : Settings where
  maxTableCapacity := 4096
  maxBlockedStreams := 100
  drainingPercent := 25
  validateFieldNames := true
  huffman := true

instance : Inhabited Settings := ⟨default⟩

def staticOnly : Settings := { default with maxTableCapacity := 0, maxBlockedStreams := 0 }

def highThroughput : Settings :=
  { default with maxTableCapacity := 16384, maxBlockedStreams := 500, drainingPercent := 10 }

inductive Problem where
  /-- More than all of the capacity is to be kept free. -/
  | drainingPercent (percent : Nat)
  /-- A table that is there but holds nothing. -/
  | maxTableCapacity (capacity : Nat)
deriving DecidableEq, Repr

/-- The wording of a problem. -/
def Problem.message : Problem → String
  | drainingPercent percent => s!"draining_percent ({percent}) must be between 0 and 100"
  | maxTableCapacity capacity =>
    s!"max_table_capacity ({capacity}) cannot hold a single entry; "
      ++ "use 0 to disable the dynamic table"

def problems (s : Settings) : List Problem :=
  (if 100 < s.drainingPercent then [.drainingPercent s.drainingPercent] else [])
    ++ (if 0 < s.maxTableCapacity ∧ s.maxTableCapacity < Field.overhead then
        [.maxTableCapacity s.maxTableCapacity] else [])

end Settings
end Qpack
