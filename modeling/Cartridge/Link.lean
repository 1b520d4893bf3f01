import Cartridge.Assembly
import Cartridge.Bytes
import Cartridge.Section

/-!
# Linking binary files

A binary file of texts starts with offsets that count from its first text.  Linking turns them into
addresses once the section of the texts has its place, and lists the finished files for the
assembler.
-/

namespace Cartridge.Link

/-- The part of a text before the last occurrence of `mark`; empty if there is none. -/
def beforeLast (mark : List Char) (s : List Char) : List Char :=
  match s with
  | [] => []
  | c :: rest =>
    if Section.occurs mark rest then c :: beforeLast mark rest else []

/-- The name of the section of a file: its own name up to the version. -/
def sectionName (version path : String) : String :=
  String.ofList (beforeLast ('_' :: version.toList) (Path.stem path).toList)

def offsetsOf : List Nat → List Nat
  | offset :: _ :: rest => offset :: offsetsOf rest
  | _ => []

/-- How one kind of file is linked: the title of its section, and the linked file by the section's
place. -/
structure Format where
  title : String → String
  link : ByteArray → Section → Except Fault ByteArray

/-- What is linked: where the result and its listing go, the version, and the sources that place
the sections. -/
structure Request where
  listing : String
  folder : String
  version : String
  source : String
  versionSource : String
  inputs : List String

def linkFile (f : Format) (r : Request) (input : String) : Job (String × String) := do
  let name := sectionName r.version input
  let output := Path.join r.folder (Path.baseName input)
  let source ← Section.readSources r.source r.versionSource
  match ← Job.lift (Section.find (f.title name) source) with
  | none => throw (.noted .refused ("Could not find " ++ name ++ " section in " ++ r.source))
  | some place =>
    let linked ← Job.lift (f.link (← Job.readFile input) place)
    Job.writeFile output linked
    return (name, output)

def run (f : Format) (r : Request) : Job Unit := do
  let paths ← r.inputs.mapM (linkFile f r)
  let lines := (Table.ofList paths).entries.map fun e => Assembly.Line.define ("c" ++ e.1) e.2
  Job.writeText r.listing (Assembly.render lines)

end Cartridge.Link
