import Cartridge.Fault
import Cartridge.Text.Lines

/-!
# Dialog sheets

A sheet lists the texts of a dialog section for all versions of the game, a row a text, with an
index, a pointer and the text in several languages.

A row may be meant for one version alone (`index#version`), and its pointer may differ between
versions (`pointer#version|pointer#version`).  `Sheet.choose` gives the pointer and the text of a
row for a version, if it has any, and `Sheet.select` what they say: a pointer and a `Content`.
-/

namespace Cartridge.Dialog

inductive Content where
  | shared (pointer : String)
  | final
  | text (ended : Bool) (s : List Char)
  deriving DecidableEq, Repr

structure Entry where
  pointer : String
  content : Content
  deriving DecidableEq, Repr

namespace Sheet

structure Columns where
  index : Nat
  pointer : Nat
  text : Nat
  /-- The column of the first language, which texts not yet written look at. -/
  source : Option Nat
  deriving DecidableEq, Repr

def column (header : List String) (name : String) : Except Fault Nat :=
  demand (header.idxOf? name) (.plain .value)

def Columns.find (header : List String) (name : String) : Except Fault Columns := do
  let index ← column header "Index[#version]"
  let pointer ← column header "Pointer[#version|]"
  let text ← column header name
  return ⟨index, pointer, text, header.idxOf? "Original"⟩

def cell (row : List String) (i : Nat) : Except Fault String := demand row[i]? (.plain .index)

/-- Whether an index is for a version: for all, or for that one. -/
def isFor (version index : String) : Bool :=
  match Text.parts '#' index with
  | _ :: v :: _ => v == version
  | _ => true

def pointerAmong (version : String) : List String → Except Fault String
  | [] => .error (.plain .exhausted)
  | p :: rest =>
    match Text.parts '#' p with
    | pointer :: v :: _ => if v = version then .ok pointer else pointerAmong version rest
    | _ => .error (.plain .index)

/-- The pointer of a version; `none` if the version has none. -/
def pointerFor (version s : String) : Except Fault (Option String) :=
  match Text.parts '|' s with
  | [] => .ok (some s)
  | [p] => .ok (some p)
  | ps => do
    let p ← pointerAmong version ps
    return if p.isEmpty then none else some p

def afterMark : List Char → List Char
  | '0' :: 'x' :: rest => rest
  | _ :: rest => afterMark rest
  | [] => []

def fromEnd : List Char → List Char
  | '<' :: '*' :: rest => '<' :: '*' :: rest
  | _ :: rest => fromEnd rest
  | [] => []

/-- The text that stands for one not yet written: the address, with the speed at the start and the
end code of the text in the first language. -/
def placeholder (pointer : String) (source : Option String) : List Char :=
  let mark := (afterMark pointer.toList).map Char.toUpper
  match source with
  | none => mark
  | some s =>
    let speed := if "<S".toList.isPrefixOf s.toList then s.toList.take 5 else []
    speed ++ mark ++ fromEnd s.toList

def Content.ofText (s : List Char) : Content :=
  if s = "<FINAL>".toList then .final
  else if "<NOTERM:".toList.isPrefixOf s then .text false (s.drop 8).dropLast
  else .text true s

/-- The pointer and the text of a row for a version; `none` if the row says nothing for it. -/
def choose (c : Columns) (version : String) (row : List String) :
    Except Fault (Option (String × String)) := do
  let first ← cell row 0
  if first.startsWith "#" then return none
  if !isFor version (← cell row c.index) then return none
  match ← pointerFor version (← cell row c.pointer) with
  | none => return none
  | some pointer => return some (pointer, ← cell row c.text)

/-- What the text of a row says; the row is that of `pointer`. -/
def contentOf (c : Columns) (row : List String) (pointer text : String) : Except Fault Content := do
  if text.startsWith "@" then
    return .shared (String.ofList (text.toList.dropWhile (· == '@')))
  else if text.isEmpty then
    return Content.ofText (placeholder pointer (← c.source.mapM (cell row)))
  else return Content.ofText text.toList

def select (c : Columns) (version : String) (row : List String) : Except Fault (Option Entry) := do
  match ← choose c version row with
  | none => return none
  | some (pointer, text) => return some ⟨pointer, ← contentOf c row pointer text⟩

end Sheet

end Cartridge.Dialog
