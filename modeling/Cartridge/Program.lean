import Cartridge.Dialog.Build
import Cartridge.Dialog.Dump
import Cartridge.Dialog.Link
import Cartridge.Metasprite
import Cartridge.Png.Tool
import Cartridge.PointerList.Build
import Cartridge.PointerList.Dump
import Cartridge.PointerList.Link
import Cartridge.Tilemap.Build
import Cartridge.Tilemap.Check
import Cartridge.Tilemap.Dump
import Cartridge.Tileset.Build
import Cartridge.Tileset.Dump
import Cartridge.Tileset.Misc
import Cartridge.Tileset.Partial

/-!
# Programs

The programs of the tool chain, each a job of its arguments.
-/

namespace Cartridge

inductive Program where
  | buildMap
  | checkMaps
  | buildTileset
  | convertTileset
  | buildDialog
  | linkDialog
  | buildPointerList
  | linkPointerLists
  | convertImage
  | dumpDialog
  | dumpMaps
  | dumpMetasprites
  | dumpPointerLists
  | dumpTilesets
  | dumpPlainTilesets
  | dumpTilesetScripts
  | idle
  deriving DecidableEq, Repr, Inhabited

namespace Program

def argument (args : List String) (i : Nat) : Job String := demand args[i]? (.plain .index)

def number (args : List String) (i : Nat) : Job Int := do
  demand (Text.readDecimal? (← argument args i)) (.plain .value)

def hexNumber (args : List String) (i : Nat) : Job Int := do
  demand (Text.readHex? (← argument args i)) (.plain .value)

def linkRequest (args : List String) : Job Link.Request := do
  let listing ← argument args 0
  let folder ← argument args 1
  let version ← argument args 2
  let source ← argument args 3
  let versionSource ← argument args 4
  return { listing, folder, version, source, versionSource, inputs := args.drop 5 }

def dumpMapsOf (args : List String) : Job Unit := do
  let label ← argument args 0
  let texts ← argument args 1
  discard (argument args 2)
  let output ← argument args 3
  let resources ← argument args 4
  let source ← argument args 5
  let banks ← hexNumber args 6
  let addresses ← hexNumber args 7
  let count ← hexNumber args 8
  Tilemap.dump { label, texts, output, resources, source } banks addresses count

def toEnd (job : Job Unit) : Job Ending := do
  job
  return .finished

def run (p : Program) (name : String) (args : List String) : Job Ending :=
  match p with
  | buildMap => do Tilemap.build (← argument args 0) (← argument args 1) (← argument args 2)
  | checkMaps => toEnd do Tilemap.checkFolder (← argument args 0)
  | buildTileset => do Tileset.build (← argument args 0) (← argument args 1) (← argument args 2)
  | convertTileset => toEnd do
    let conversion ← number args 0
    let input ← argument args 1
    let output ← argument args 2
    Tileset.convertFile (.ofInt conversion) input output (← number args 3)
  | buildDialog => toEnd do
    Dialog.build (← argument args 0) (← argument args 1) (← argument args 2) (← argument args 3)
      (← argument args 4) (← argument args 5)
  | linkDialog => toEnd do Link.run Dialog.format (← linkRequest args)
  | buildPointerList => toEnd do
    let lettering ← Lettering.read
    PointerList.build lettering (← argument args 0) (← argument args 1) (← argument args 2)
  | linkPointerLists => toEnd do Link.run PointerList.format (← linkRequest args)
  | convertImage => Png.Tool.console (Path.baseName name) args
  | dumpDialog => toEnd do
    let resources ← argument args 0
    let source ← argument args 1
    let sheets ← argument args 2
    let built ← argument args 3
    Dialog.dump { resources, source, sheets, built }
  | dumpMaps => toEnd (dumpMapsOf args)
  | dumpMetasprites => toEnd do Metasprite.dump name (← argument args 0)
  | dumpPointerLists => toEnd do
    let source ← argument args 0
    let texts ← argument args 1
    let built ← argument args 2
    PointerList.dump { source, texts, built }
  | dumpTilesets => toEnd do
    let pictures ← argument args 0
    let stored ← argument args 1
    let output ← argument args 2
    let resources ← argument args 3
    let source ← argument args 4
    Tileset.dump { pictures, stored, output, resources, source }
  | dumpPlainTilesets => toEnd do
    let pictures ← argument args 0
    let output ← argument args 1
    discard (argument args 2)
    let source ← argument args 3
    discard (argument args 4)
    Tileset.dumpPlainTilesets name pictures output source
  | dumpTilesetScripts => toEnd do
    Tileset.dumpScriptsAndParts name (← argument args 0) (← argument args 1) (← argument args 2)
      (← argument args 3) (← argument args 4)
  | idle => return .finished

end Program

end Cartridge
