import Cartridge.Fault
import Cartridge.Table
import Cartridge.Text.Lines

/-!
# Workspaces and jobs

A `Workspace` is what a job can see and change: the files and folders below its working
directory and the text it has printed.  A `Job` is a computation on a workspace that may fail; the
workspace that it had reached then stays as it is, so a failing job shows what it printed and what
it had written.
-/

namespace Cartridge

structure Workspace where
  files : Table String ByteArray := ∅
  /-- The paths of the folders, the working directory itself being the empty path. -/
  folders : List String := [""]
  printed : String := ""
  complaints : String := ""

abbrev Job := ExceptT Fault (StateM Workspace)

/-- Where a path leads: its plain form, and whether it asks for a folder. -/
structure Place where
  path : String
  asFolder : Bool

namespace Workspace

def joinNames (names : List String) : String := String.intercalate "/" names

def foldersAbove (path : String) : List String :=
  let names := (Text.parts '/' path).dropLast
  (List.range names.length).map fun i => joinNames (names.take (i + 1))

/-- The workspace that holds the given files and folders and whatever lies above them. -/
def ofFiles (files : List (String × ByteArray)) (folders : List String) : Workspace :=
  { files := Table.ofList files
    folders := ("" :: (files.flatMap fun f => foldersAbove f.1) ++
      folders.flatMap fun d => foldersAbove d ++ [d]).eraseDups }

def isFolder (w : Workspace) (path : String) : Bool := w.folders.contains path

def isFile (w : Workspace) (path : String) : Bool := w.files.contains path

/-- Follows the names of a path from the folder `here`, the last name being free. -/
def walk (w : Workspace) (here : List String) : List String → Except Fault (List String)
  | [] => .ok here
  | name :: rest =>
    if name = "" ∨ name = "." then w.walk here rest
    else if name = ".." then w.walk here.dropLast rest
    else
      let next := here ++ [name]
      if rest.isEmpty ∨ w.isFolder (joinNames next) then w.walk next rest
      else if rest.all (· = "") then .ok next
      else if w.isFile (joinNames next) then .error (.plain .notDirectory)
      else .error (.plain .fileMissing)

/-- Finds where a path leads.  Nothing is known outside the working directory. -/
def locate (w : Workspace) (path : String) : Except Fault Place := do
  if path.toList.contains (Char.ofNat 0) then throw (.plain .value)
  if path.isEmpty ∨ path.startsWith "/" then throw (.plain .fileMissing)
  let names := Text.parts '/' path
  let found ← w.walk [] names
  return ⟨joinNames found, names.getLast? == some ""⟩

def read (w : Workspace) (path : String) : Except Fault ByteArray := do
  let place ← w.locate path
  if w.isFolder place.path then throw (.plain .isDirectory)
  match w.files.find? place.path with
  | none => throw (.plain .fileMissing)
  | some content =>
    if place.asFolder then throw (.plain .notDirectory)
    return content

/-- The plain form of the path of a file that is about to be written. -/
def target (w : Workspace) (path : String) : Except Fault String := do
  let place ← w.locate path
  if w.isFolder place.path ∨ place.asFolder then throw (.plain .isDirectory)
  return place.path

def hasFile (w : Workspace) (path : String) : Bool :=
  match w.locate path with
  | .ok place => !place.asFolder && w.isFile place.path
  | .error _ => false

def hasPath (w : Workspace) (path : String) : Bool :=
  match w.locate path with
  | .ok place => w.isFolder place.path || (!place.asFolder && w.isFile place.path)
  | .error _ => false

def filesIn (w : Workspace) (folder : String) : List String :=
  let above := if folder.isEmpty then "" else folder ++ "/"
  w.files.keys.filterMap fun path =>
    if path.startsWith above then
      let name := (path.drop above.length).toString
      if name.contains '/' then none else some name
    else none

end Workspace

namespace Job

variable {α : Type}

def lift (x : Except Fault α) : Job α := ExceptT.mk (pure x)

def put (text : String) : Job Unit := modify fun w => { w with printed := w.printed ++ text }

def say (line : String) : Job Unit := put (line ++ "\n")

def complain (line : String) : Job Unit :=
  modify fun w => { w with complaints := w.complaints ++ line ++ "\n" }

def readFile (path : String) : Job ByteArray := do lift ((← get).read path)

def decode (bytes : ByteArray) : Except Fault String :=
  match String.fromUTF8? bytes with
  | some s => .ok s
  | none => .error (.plain .encoding)

def readText (path : String) : Job (List Char) := do
  let s ← lift (decode (← readFile path))
  return Text.unifyNewlines s.toList

def byteOrderMark : Char := '\uFEFF'

def dropByteOrderMark : List Char → List Char
  | [] => []
  | c :: rest => if c = byteOrderMark then rest else c :: rest

def readMarkedText (path : String) : Job (List Char) := dropByteOrderMark <$> readText path

/-- Empties a file, making it if there is none, and gives its plain path. -/
def create (path : String) : Job String := do
  let key ← lift ((← get).target path)
  modify fun w => { w with files := w.files.insert key ByteArray.empty }
  return key

def append (key : String) (bytes : ByteArray) : Job Unit :=
  modify fun w => { w with files := w.files.modify key (· ++ bytes) }

/-- Adds pieces to a file made by `create`, up to the first one that cannot be had. -/
def fill (key : String) : List (Except Fault ByteArray) → Job Unit
  | [] => pure ()
  | piece :: rest => do
    append key (← lift piece)
    fill key rest

def writeFile (path : String) (bytes : ByteArray) : Job Unit := do
  let key ← lift ((← get).target path)
  modify fun w => { w with files := w.files.insert key bytes }

def writeText (path : String) (text : String) : Job Unit := writeFile path text.toUTF8

/-- Adds a text, with a mark at its start, to a file made by `create`. -/
def appendMarked (key : String) (text : String) : Job Unit :=
  append key (byteOrderMark.toString ++ text).toUTF8

def on (job : Job α) (w : Workspace) : Except Fault α × Workspace := job.run.run w

end Job

/-- How a program ended: at its end, or earlier by its own decision with an exit code. -/
inductive Ending where
  | finished
  | quit (code : Option Int)
  deriving DecidableEq, Repr, Inhabited

namespace Path

/-- Joins a folder and a name; a name that starts at the root stands alone. -/
def join (folder name : String) : String :=
  if name.startsWith "/" then name
  else if folder.isEmpty ∨ folder.endsWith "/" then folder ++ name
  else folder ++ "/" ++ name

def baseName (path : String) : String := ((Text.parts '/' path).getLast?).getD ""

/-- Splits a name at its last full stop, if that is not among leading full stops. -/
def splitExtension (name : String) : String × String :=
  let cs := name.toList
  let lead := cs.takeWhile (· == '.')
  let body := cs.drop lead.length
  let ext := (body.reverse.takeWhile (· != '.')).reverse
  if ext.length < body.length then
    (String.ofList (lead ++ body.take (body.length - ext.length - 1)), String.ofList ('.' :: ext))
  else (name, "")

def stem (path : String) : String := (splitExtension (baseName path)).1

end Path

end Cartridge
