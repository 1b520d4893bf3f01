import Cartridge.Charset

/-!
# Lettering

The characters in which the game's text is set: letters with a byte of their own, and kanji, which
take a mark and a byte.  No character is both.
-/

namespace Cartridge

structure Lettering where
  letters : Table String Int
  kanji : Table String Int
  deriving DecidableEq

namespace Lettering

def kanjiMark : Int := 0xD3

/-- The letters of the dialog: two sets of tiles and the special ones. -/
def readLetters : Job Charset := do
  let first ← Charset.ofTilesetAt "MainDialog1" 0
  let second ← Charset.ofTilesetAt "MainDialog2" 0x80
  let special ← Charset.ofTilesetAt "Special" 0xE0
  return Table.merge [first, second, special]

def isDisjoint (l : Lettering) : Bool := l.kanji.keys.all fun k => !l.letters.contains k

def read : Job Lettering := do
  let letters ← readLetters
  let kanji ← Charset.ofTilesetAt "Kanji" 0
  let l : Lettering := ⟨letters.swap, kanji.swap⟩
  require l.isDisjoint .unmet
  return l

inductive Code where
  | letter (n : Int)
  | kanji (n : Int)
  deriving DecidableEq, Repr

def Code.numbers : Code → List Int
  | letter n => [n]
  | kanji n => [kanjiMark, n]

def code? (l : Lettering) (c : Char) : Option Code :=
  match l.kanji.find? c.toString with
  | some n => some (.kanji n)
  | none => (l.letters.find? c.toString).map .letter

end Lettering

end Cartridge
