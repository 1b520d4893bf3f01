/-!
# Versions

The game exists in two versions, each with its own image.  The first is the one that data common to
both is taken from.
-/

namespace Cartridge

inductive Version where
  | kabuto
  | kuwagata
  deriving DecidableEq, Repr, Inhabited

namespace Version

def all : List Version := [kabuto, kuwagata]

def name : Version → String
  | kabuto => "kabuto"
  | kuwagata => "kuwagata"

def image (v : Version) : String := "baserom_" ++ v.name ++ ".gbc"

end Version

end Cartridge
