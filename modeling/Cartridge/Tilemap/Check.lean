import Cartridge.Text.Quoted
import Cartridge.Tilemap.Expand
import Cartridge.Tilemap.Pack

/-!
# Checking packed maps

Every stored map of a folder is unpacked and packed again.  The result has to unpack to the same
map; where its bytes differ, the map is reported with a word on its size.
-/

namespace Cartridge.Tilemap

/-- Checks one stored map: `none` if packing gives the same bytes again, else a verdict. -/
def checkMap (bytes : List Int) : Job (Option String) := do
  let mode ← demand bytes.head? (.plain .index)
  require (mode != 0) .unmet
  let stored := bytes.drop 1
  let map ← Job.lift (unpack stored)
  require (map.getLast? == some endCell) .unmet
  let packed ← pack map
  let again ← Job.lift (unpack packed)
  require (again == map) .unmet
  if packed == stored then return none
  else return some (if stored.length < packed.length then "Worse Compression" else "Better/Same Compression")

def mapsIn (folder : String) : Job (List String) := do
  let w ← get
  match if folder.isEmpty then .ok ⟨"", true⟩ else w.locate folder with
  | .error _ => return []
  | .ok place =>
    let shown := String.ofList (Text.trimRight (· == '/') folder.toList)
    return (w.filesIn place.path).filterMap fun name =>
      if name.endsWith ".map" && !name.startsWith "." then some (Path.join shown name) else none

def checkFolder (folder : String) : Job Unit := do
  Job.say "Test that compression generates the same decompressed result"
  let verdicts ← (← mapsIn folder).mapM fun path => do
    let bytes ← Job.readFile path
    Job.say ("\t Testing " ++ path)
    let verdict ← checkMap (bytes.data.toList.map fun b => (b.toNat : Int))
    return verdict.map fun v => Text.parenthesized [Text.quote path, Text.quote v]
  let reports := verdicts.filterMap id
  if !reports.isEmpty then
    Job.say "Compression did not match for the following:"
    reports.forM Job.say
  Job.say "OK!"

end Cartridge.Tilemap
