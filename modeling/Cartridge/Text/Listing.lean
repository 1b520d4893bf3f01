/-!
# Listings

How sequences are shown in messages: items between brackets, separated by a comma and a blank.
-/

namespace Cartridge.Text

def commaSeparated (items : List String) : String := String.intercalate ", " items

def bracketed (items : List String) : String := "[" ++ commaSeparated items ++ "]"

/-- Items in round brackets; a single item is followed by a comma. -/
def parenthesized : List String → String
  | [item] => "(" ++ item ++ ",)"
  | items => "(" ++ commaSeparated items ++ ")"

def integers (ns : List Int) : String := bracketed (ns.map toString)

end Cartridge.Text
