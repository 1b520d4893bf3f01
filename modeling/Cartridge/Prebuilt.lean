import Cartridge.Workspace

/-!
# Prebuilt files

A finished file may be given in a folder of prebuilt files; a build step then copies it instead of
building it from its source.
-/

namespace Cartridge.Prebuilt

/-- Copies a file.  A file cannot be copied onto itself. -/
def copy (source target : String) : Job Unit := do
  let bytes ← Job.readFile source
  let w ← get
  match w.locate source, w.locate target with
  | .ok a, .ok b => require (a.path != b.path) (.plain .sameFile)
  | _, _ => pure ()
  Job.writeFile target bytes

/-- Uses the prebuilt file `name` of the folder `root` if there is one, and builds otherwise. -/
def orBuild (root name output : String) (build : Job Unit) : Job Ending := do
  let path := Path.join root name
  if (← get).hasFile path then
    Job.say ("\tUsing prebuilt " ++ path)
    copy path output
    return .quit none
  else
    build
    return .finished

end Cartridge.Prebuilt
