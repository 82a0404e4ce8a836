import CodeCensus.Decimal.Shortest
import CodeCensus.Fault
import CodeCensus.Settings.VariablePath

/-!
# Values that variables build up

Variables place values at paths, one after the other. What stands in the way of a path gives way: a
name needs a table and a number needs a list. Lists grow to the item that is asked for; the items
skipped on the way are absent, and a list with absent items is no list of texts.
-/

namespace CodeCensus

/-- A value with its parts. A list keeps its length and the items that are there. -/
inductive VariableTree
  | absent
  | flag (value : Bool)
  | whole (value : Int)
  | number (value : Decimal.Spelled)
  | word (text : String)
  | list (length : Nat) (items : List (Nat × VariableTree))
  | table (entries : List (String × VariableTree))

namespace VariableTree

/-- The list of the given words. -/
def ofWords (words : List String) : VariableTree :=
  .list words.length ((List.range words.length).zip (words.map .word))

/-- The entries of a table; any other value has none. -/
def entries : VariableTree → List (String × VariableTree)
  | .table entries => entries
  | _ => []

/-- The length and the items of a list; any other value counts as an empty list. -/
def items : VariableTree → Nat × List (Nat × VariableTree)
  | .list length items => (length, items)
  | _ => (0, [])

/-- No list has more items: an item takes 96 bytes, and a list at most as many as the greatest
signed 64-bit word counts. -/
def capacity : Nat := 9223372036854775807 / 96

/-- The position of an item in a list of the given length. An item before the first or beyond the
capacity is a fault. -/
def position (index : Int) (length : Nat) : Except Fault Nat :=
  if index < 0 then
    if index.natAbs ≤ length then .ok (length - index.natAbs) else .error .noSuchItem
  else if index.toNat < capacity then .ok index.toNat
  else .error .noSuchItem

/-- Places a value at a path. -/
def place (value : VariableTree) : List VariableStep → VariableTree → Except Fault VariableTree
  | [], _ => .ok value
  | .key name :: steps, tree => do
    let entries := tree.entries
    let inner ← place value steps ((entries.lookup name).getD .absent)
    return .table ((name, inner) :: entries.filter fun entry => entry.1 != name)
  | .item index :: steps, tree => do
    let (length, items) := tree.items
    let position ← position index length
    let inner ← place value steps ((items.lookup position).getD .absent)
    return .list (max length (position + 1))
      ((position, inner) :: items.filter fun item => item.1 != position)

/-- The value of a name in a table. -/
def entry? (name : String) (tree : VariableTree) : Option VariableTree :=
  tree.entries.lookup name

/-- The text that a value stands for. -/
def text? : VariableTree → Option String
  | .flag value => some (if value then "true" else "false")
  | .whole value => some (toString value)
  | .number value => some value.text
  | .word text => some text
  | _ => none

/-- The list of texts that a value stands for. -/
def texts? : VariableTree → Option (List String)
  | .list length items =>
    if items.length = length then
      (List.range length).mapM fun position => (items.lookup position).bind text?
    else
      none
  | _ => none

end VariableTree

end CodeCensus
