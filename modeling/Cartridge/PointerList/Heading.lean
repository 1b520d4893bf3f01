import Cartridge.Text.Literal

/-!
# Headings of pointer lists

The first line of a pointer list says how its entries are stored, as a literal of nine values.
-/

namespace Cartridge.PointerList

structure Heading where
  fields : Value
  labels : Value
  /-- For every field the code that ends it, or nothing. -/
  ends : Value
  /-- For every field its size and the code that fills it up, or nothing. -/
  sizes : Value
  absent : Value
  lead : Value
  general : Value
  tileset : Value

namespace Heading

def ofValues : List Value → Except Fault Heading
  | [fields, labels, ends, sizes, _, absent, lead, general, tileset] =>
    .ok { fields, labels, ends, sizes, absent, lead, general, tileset }
  | _ => .error (.plain .value)

def read (line : List Char) : Except Fault Heading := do
  ofValues (← (← Text.Literal.read (Text.trim Text.isBlank line)).elements)

/-- Checks that entries have fields and as many labels as fields, if any; `path` names the list. -/
def check (h : Heading) (path : String) : Except Fault Unit := do
  let some ← h.fields.isAbove 0
  require some (.noted .check (path ++ " is marked as having 0 strings per pointer"))
  let labels ← h.labels.length
  require (labels = 0 || h.fields.isInt labels)
    (.noted .check (path ++ " has a label count that doesn't match strings per pointer"))

end Heading

end Cartridge.PointerList
