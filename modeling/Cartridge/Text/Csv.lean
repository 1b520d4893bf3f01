/-!
# Comma-separated values

Tables in text: a record is a line, its fields separated by commas.  A field that holds a comma, a
quote or a line end stands in quotes, with its own quotes doubled.

Reading (`Csv.parse`) is generous: a quote inside a field that does not start with one is an
ordinary character, text after a closing quote is added to the field, an open quote reaches to the
end, and a blank line is a record without fields.  `Csv.render` writes a record.
-/

namespace Cartridge.Text.Csv

inductive Mode where
  | record
  | field
  | plain
  | quoted
  | closing
  deriving DecidableEq, Repr

/-- What has been read: the characters of the field, the fields of the record and the records, the
last ones first. -/
structure Reading where
  mode : Mode := .record
  chars : List Char := []
  fields : List String := []
  records : List (List String) := []

namespace Reading

def endField (r : Reading) : Reading :=
  { r with mode := .field, chars := [], fields := String.ofList r.chars.reverse :: r.fields }

def endRecord (r : Reading) : Reading :=
  { r with mode := .record, fields := [], records := r.fields.reverse :: r.records }

def add (r : Reading) (mode : Mode) (c : Char) : Reading := { r with mode, chars := c :: r.chars }

def outside (r : Reading) (c : Char) : Reading :=
  if c = '\n' then r.endField.endRecord
  else if c = ',' then r.endField
  else r.add .plain c

def step (r : Reading) (c : Char) : Reading :=
  match r.mode with
  | .record =>
    if c = '\n' then r.endRecord
    else if c = '"' then { r with mode := .quoted }
    else r.outside c
  | .field => if c = '"' then { r with mode := .quoted } else r.outside c
  | .plain => r.outside c
  | .quoted => if c = '"' then { r with mode := .closing } else r.add .quoted c
  | .closing => if c = '"' then r.add .quoted c else r.outside c

def finish (r : Reading) : List (List String) :=
  (if r.mode = .record then r else r.endField.endRecord).records.reverse

end Reading

def parse (s : List Char) : List (List String) := (s.foldl Reading.step {}).finish

def needsQuotes (s : List Char) : Bool := s.any fun c => c == ',' || c == '"' || c == '\n' || c == '\r'

def doubleQuotes (s : List Char) : List Char :=
  s.flatMap fun c => if c = '"' then ['"', '"'] else [c]

def renderField (s : String) : String :=
  if needsQuotes s.toList then String.ofList ('"' :: doubleQuotes s.toList ++ ['"']) else s

/-- A record as it is written; a single empty field is quoted. -/
def render (fields : List String) : String :=
  match fields with
  | [""] => "\"\"\n"
  | fields => String.intercalate "," (fields.map renderField) ++ "\n"

end Cartridge.Text.Csv
