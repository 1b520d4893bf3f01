import Cartridge.Program

/-!
# The command line

`cartridge PROGRAM ARGUMENT...` runs one program of the tool chain.  The paths of the files that it
may see come on standard input, one a line; files that it changes are written back.
-/

namespace Cartridge.Main

def programs : List (String × Program) :=
  [("build-map", .buildMap), ("check-maps", .checkMaps), ("build-tileset", .buildTileset),
    ("convert-tileset", .convertTileset), ("build-dialog", .buildDialog),
    ("link-dialog", .linkDialog), ("build-pointer-list", .buildPointerList),
    ("link-pointer-lists", .linkPointerLists), ("convert-image", .convertImage),
    ("dump-dialog", .dumpDialog), ("dump-maps", .dumpMaps), ("dump-metasprites", .dumpMetasprites),
    ("dump-pointer-lists", .dumpPointerLists), ("dump-tilesets", .dumpTilesets),
    ("dump-plain-tilesets", .dumpPlainTilesets), ("dump-tileset-scripts", .dumpTilesetScripts)]

def usage : String :=
  "usage: cartridge PROGRAM ARGUMENT...\nprograms: " ++ String.intercalate " " (programs.map (·.1))

partial def readLines (input : IO.FS.Stream) : IO (List String) := do
  let line ← input.getLine
  if line.isEmpty then return []
  let rest ← readLines input
  return (line.trimAsciiEnd).toString :: rest

/-- Loads the files at some paths; a path that ends in a slash is a folder. -/
def load (paths : List String) : IO Workspace := do
  let (folders, files) := (paths.filter (· != "")).partition fun p => p.endsWith "/"
  let contents ← files.mapM fun (path : String) => do return (path, ← IO.FS.readBinFile path)
  return Workspace.ofFiles contents (folders.map fun p => (p.dropEnd 1).toString)

def store (before after : Workspace) : IO Unit := do
  for (path, content) in after.files.entries do
    if (before.files.find? path).map (·.data) != some content.data then
      IO.FS.writeBinFile path content

def exitCode : Ending → UInt32
  | .finished | .quit none => 0
  | .quit (some code) => code.toNat.toUInt32

def runProgram (name : String) (p : Program) (args : List String) : IO UInt32 := do
  let before ← load (← readLines (← IO.getStdin))
  let (result, after) := (p.run name args).on before
  store before after
  IO.print after.printed
  IO.eprint after.complaints
  match result with
  | .ok ending => return exitCode ending
  | .error fault =>
    IO.eprintln (name ++ ": " ++ fault.note.getD (reprStr fault.cause))
    return 1

end Cartridge.Main

def main : List String → IO UInt32
  | name :: args =>
    match Cartridge.Main.programs.lookup name with
    | some p => Cartridge.Main.runProgram name p args
    | none => do
      IO.eprintln Cartridge.Main.usage
      return 2
  | [] => do
    IO.eprintln Cartridge.Main.usage
    return 2
