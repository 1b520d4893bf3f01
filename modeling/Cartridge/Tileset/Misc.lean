import Cartridge.Address
import Cartridge.Assembly
import Cartridge.Bytes
import Cartridge.Picture.Save
import Cartridge.Version

/-!
# Plain tilesets

Some tilesets are stored as they are.  Each becomes a picture and two sections of source: one with
its tiles, and one that marks its last byte.
-/

namespace Cartridge.Tileset

structure Plain where
  name : String
  address : Address
  count : Nat

def plainTilesets : List Plain := [⟨"CreditsFont", ⟨0x18, 0x4000⟩, 0x32E⟩]

def tileBytes : Nat := 16

def dumpPlain (image : ByteArray) (pictures output : String) (t : Plain) :
    Job (List Assembly.Line) := do
  let start ← Job.lift (Bytes.position t.address.flat)
  let data := image.extract start (start + tileBytes * t.count)
  Picture.save (Path.join pictures (t.name ++ ".png")) data.data.toList none none
  let last ← Job.lift (Address.ofFlat (start + data.size - 1))
  return [.place ("Tileset " ++ t.name) (Assembly.banked t.address.offset t.address.bank),
    .label ("Tileset" ++ t.name),
    .binary (Assembly.quoted (Path.join output (t.name ++ ".2bpp"))),
    .place ("Tileset " ++ t.name ++ " End") (Assembly.banked last.offset t.address.bank),
    .blank]

def dumpPlainTilesets (program pictures output source : String) : Job Unit := do
  let image ← Job.readFile Version.kabuto.image
  let key ← Job.create (Path.join source "tilesets_misc_data.asm")
  let lines ← plainTilesets.mapM (dumpPlain image pictures output)
  let head : List Assembly.Line :=
    [.remark ("File initially autogenerated by " ++ program), .blank]
  Job.append key (Assembly.render (head ++ lines.flatten)).toUTF8

end Cartridge.Tileset
