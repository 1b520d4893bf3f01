import Cartridge.Dialog.Survey
import Cartridge.Version

/-!
# Joining the dialog of two versions

The texts of two versions are joined text by text into the rows of a sheet.  A text that differs
gets a row for each version; one that only has another pointer gets a row with both pointers.  An
unused text of the second version gets a row of its own.
-/

namespace Cartridge.Dialog

inductive Joined where
  | common (pointer : Pointer) (text : String)
  | moved (first second : Pointer) (text : String)
  | different (first : Pointer × String) (second : Pointer × String)
  deriving DecidableEq, Repr

/-- A place of a sheet, with the unused text of the second version that goes in front of it. -/
structure Place where
  extra : Option (Pointer × String) := none
  body : Joined
  deriving DecidableEq, Repr

def Joined.ofTexts (a b : Pointer × String) : Joined :=
  if a.2 ≠ b.2 then .different a b
  else if a.1 ≠ b.1 then .moved a.1 b.1 a.2
  else .common a.1 a.2

/-- Joins the texts of two versions; `extra` is the unused text in front of the next place, of which
only the last one counts. -/
def merge (extra : Option (Pointer × String)) : Texts → Texts → Except Fault (List Place)
  | [], [] => .ok []
  | [], _ :: _ | _ :: _, [] => .error (.plain .index)
  | a :: as, b :: bs =>
    if b.1.isUnused && !a.1.isUnused then merge (some b) (a :: as) bs
    else do return ⟨extra, .ofTexts a b⟩ :: (← merge none as bs)

def alone (texts : Texts) : List Place := texts.map fun e => { body := .common e.1 e.2 }

/-- The sections of two versions, each joined as far as both have it. -/
def mergeSections : List Texts → List Texts → Except Fault (List (List Place))
  | [], bs => .ok (bs.map alone)
  | as, [] => .ok (as.map alone)
  | a :: as, b :: bs => do
    let places ← merge none a b
    return places :: (← mergeSections as bs)

/-- Checks that a section can be joined with that of the first version, if there is one. -/
def checkAgainst (first : Survey) (i : Nat) (texts : Texts) : Except Fault Unit :=
  match first.sections[i]? with
  | some a => discard (merge none a texts)
  | none => .ok ()

/-! ### Rows -/

def indexText (i : Nat) : String := Text.Numeral.decimal 3 i

/-- What stands in the column of the other language: a repeated pointer is the same there. -/
def otherLanguage (text : String) : String := if text.startsWith "@" then text else ""

def versionRow (v : Version) (i : Nat) (e : Pointer × String) : List String :=
  [indexText i ++ "#" ++ v.name, e.1.text, e.2, otherLanguage e.2]

/-- A pointer of one version; an unused text has none. -/
def versionPointer (v : Version) : Pointer → Except Fault String
  | .slot place => .ok (Text.Numeral.markedHex place ++ "#" ++ v.name)
  | .unused _ => .error (.plain .kind)

def Place.rows (p : Place) (i : Nat) : Except Fault (List (List String)) := do
  let extra := p.extra.toList.map fun e =>
    [e.1.text ++ "#" ++ Version.kuwagata.name, e.1.text, e.2, ""]
  match p.body with
  | .different a b => return extra ++ [versionRow .kabuto i a, versionRow .kuwagata i b]
  | .moved a b text =>
    let first ← versionPointer .kabuto a
    let second ← versionPointer .kuwagata b
    return extra ++ [[indexText i, first ++ "|" ++ second, text, otherLanguage text]]
  | .common p text => return extra ++ [[indexText i, p.text, text, otherLanguage text]]

def header : List String := ["Index[#version]", "Pointer[#version|]", "Original", "Translated"]

def sheetRows (places : List Place) : Except Fault (List (List String)) := do
  let rows ← places.zipIdx.mapM fun e => e.1.rows e.2
  return header :: rows.flatten

end Cartridge.Dialog
