import Cartridge.Picture
import Cartridge.Png.Writer
import Cartridge.Workspace

/-!
# Saving pictures

Stored tiles as an image file in four shades of grey.
-/

namespace Cartridge.Picture

/-- The layout for a wanted width or, without one, a wanted height. -/
def sized (width height : Option Int) : Options :=
  if isGiven width then { width } else if isGiven height then { height } else {}

def writer (width height : Int) : Except Fault Png.Writer :=
  Png.Writer.ofOptions (.ofList [("width", .int width), ("height", .int height),
    ("palette", .none), ("compression", .int 9), ("greyscale", .flag true), ("bitdepth", .int 2)])

def encode (image : List UInt8) (width height : Option Int) : Except Fault ByteArray := do
  let p ← layOut image (sized width height)
  (← writer p.width p.height).writeLines p.pixels

def save (path : String) (image : List UInt8) (width height : Option Int) : Job Unit := do
  let key ← Job.create path
  Job.append key (← Job.lift (encode image width height))

end Cartridge.Picture
