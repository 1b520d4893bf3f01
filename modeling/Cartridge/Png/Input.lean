import Cartridge.Png.Reader

/-!
# What images are read from

A reader is opened on one thing that holds the bytes of a file (`Reader.onInput`).  An array of
samples is taken too, but nothing can be read from it.
-/

namespace Cartridge.Png

inductive Input where
  | file (data : ByteArray)
  | samples
  | notOne
  | foreign

structure Opened where
  reader : Reader
  readable : Bool

namespace Opened

def onInput : Input → Except Fault Opened
  | .file data => .ok ⟨{ data }, true⟩
  | .samples => .ok ⟨{ data := ByteArray.empty }, false⟩
  | .notOne => .error (.noted .kind "Reader() takes exactly 1 argument")
  | .foreign => .error (.noted .kind "expecting filename, file or bytes array")

/-- Makes one step, with the warnings of this step only. -/
def run {α : Type} (o : Opened) (step : Scan α) : Except Fault α × Opened :=
  let step := if o.readable then step else throw (.plain .noMember)
  let (result, reader) := step.run.run { o.reader with warnings := [] }
  (result, { o with reader })

end Opened

end Cartridge.Png
