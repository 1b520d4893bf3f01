import Cartridge.Dialog.Build
import Cartridge.Dialog.Link
import Cartridge.PointerList.Build
import Cartridge.PointerList.Link
import Cartridge.Tilemap.Build
import Cartridge.Tileset.Build
import Cartridge.Version
import Cartridge.Workload.Coding

/-!
# Workloads of the build steps

Sources of the workspace are built into a scratch folder.  What the steps print is dropped; a
workload gives the sizes of the files that came out.
-/

namespace Cartridge.Workload

/-- The scratch folder.  Listings hold the paths of built files, so the length of its name counts. -/
def scratch : String := "tmp/tmp-workload"

def inScratch (names : List String) : String := names.foldl Path.join scratch

def quietly {α : Type} (job : Job α) : Job α := ExceptT.mk do
  let before := (← get).printed
  let result ← job.run
  modify fun w => { w with printed := before }
  return result

def makeFolders (names : List String) : Job Unit :=
  modify fun w =>
    { w with folders := w.folders ++ "tmp" :: scratch :: names.map fun n => inScratch [n] }

def sizeOf (path : String) : Job Nat := do return (← Job.readFile path).size

/-- The first `n` elements, or all but the last `-n`. -/
def upTo {α : Type} (n : Int) (xs : List α) : List α :=
  if 0 ≤ n then xs.take n.toNat else xs.take (xs.length - (-n).toNat)

/-! ### Maps and tilesets -/

def prebuiltMap : ByteArray := ⟨#[0, 1, 0xFF]⟩

def prebuiltTiles : ByteArray := "prebuilt\n".toUTF8

def buildTiles (name : String) (tiles : ByteArray) : Job Nat := do
  let source := inScratch ["in", name ++ ".2bpp"]
  let output := inScratch ["out", name ++ ".malias"]
  Job.writeFile source tiles
  let _ ← Tileset.build output source (inScratch ["prebuilt"])
  sizeOf output

/-- Builds up to `n` maps, the first of them prebuilt, and a prebuilt and a plain tileset: the sizes
of the maps and of the tilesets. -/
def buildMaps (n : Int) : Job Value := quietly do
  let sources := upTo n (← filesWith "gfx/tilemaps" ".txt")
  let first ← demand sources.head? (.plain .index)
  makeFolders ["in", "out", "prebuilt"]
  Job.writeFile (inScratch ["prebuilt", Path.stem first ++ ".map"]) prebuiltMap
  Job.writeFile (inScratch ["prebuilt", "Ready.malias"]) prebuiltTiles
  let maps ← sources.mapM fun source => do
    let output := inScratch ["out", Path.stem source ++ ".map"]
    let _ ← Tilemap.build output source (inScratch ["prebuilt"])
    sizeOf output
  let ready ← buildTiles "Ready" (sampleTiles 1)
  let plain ← buildTiles "Plain" (sampleTiles 16)
  return sizes (maps ++ [ready, plain])

/-! ### Texts -/

def sectionLine (title : String) : String := "SECTION \"" ++ title ++ "\", ROMX[$4000], BANK[$20]\n"

/-- Builds every source and links the results: the sizes of the built files and of the listing. -/
def buildAndLink (f : Link.Format) (build : String → String → Job Unit) (sources : List String) :
    Job Value := quietly do
  makeFolders ["in", "out"]
  let version := Version.kabuto.name
  let built ← sources.mapM fun source => do
    let output := inScratch ["in", Path.stem source ++ "_" ++ version ++ ".bin"]
    build output source
    return output
  let places := inScratch ["places.asm"]
  let versionPlaces := inScratch ["version_places.asm"]
  let listing := inScratch ["listing.asm"]
  Job.writeText places (String.join (sources.map fun s => sectionLine (f.title (Path.stem s))))
  Job.writeText versionPlaces ""
  Link.run f ⟨listing, inScratch ["out"], version, places, versionPlaces, built⟩
  return sizes (← (built ++ [listing]).mapM sizeOf)

def buildDialog (n : Int) : Job Value := do
  let sources ← filesWith "text/dialog" ".csv"
  buildAndLink Dialog.format (fun output source =>
    Dialog.build output source "scripts/res/ptrs.tbl" "scripts/res/portraits.tbl" "Original"
      Version.kabuto.name) (upTo (max 1 n) sources)

def buildPointerLists (n : Int) : Job Value := do
  let sources ← filesWith "text/ptrlists" ".txt"
  buildAndLink PointerList.format (fun output source => do
    PointerList.build (← Lettering.read) output source Version.kabuto.name) (upTo (max 1 n) sources)

end Cartridge.Workload
