/-!
# Faults

A job stops either because it finishes or because of a `Fault`.  A fault has a `Cause`, the kind
of thing that went wrong, and a `note` when the library itself has something to say about it; a
fault without a note comes from a basic operation (a missing file, a key that is not in a table,
a number that does not fit its field) and is explained by its cause alone.
-/

namespace Cartridge

inductive Cause where
  /-- A condition that the job relies on does not hold. -/
  | check
  | index
  | key
  /-- A value of the right kind that is not acceptable. -/
  | value
  | kind
  /-- A sequence ended before the element asked for. -/
  | exhausted
  | zeroDivision
  | overflow
  | fileMissing
  | isDirectory
  | notDirectory
  | sameFile
  | position
  | encoding
  | literal
  /-- Binary fields that do not match the bytes or numbers given for them. -/
  | field
  | stream
  | table
  | image
  | imageFormat
  | imageChunk
  | endOfInput
  | unsupported
  | notJson
  | undefinedName
  | noMember
  /-- A failure passed on where none is pending. -/
  | nothingPending
  /-- Any other refusal of the job itself. -/
  | refused
  deriving DecidableEq, Repr, Inhabited

/-- A failure: its cause, and the note that the library attaches to it, if any. -/
structure Fault where
  cause : Cause
  note : Option String := none
  deriving DecidableEq, Repr, Inhabited

namespace Fault

def plain (cause : Cause) : Fault := ⟨cause, none⟩

def noted (cause : Cause) (note : String) : Fault := ⟨cause, some note⟩

/-- A condition that does not hold, with nothing more to say about it. -/
def unmet : Fault := noted .check ""

/-- A failure signalled by a value that is no failure report. -/
def notAReport : Fault := noted .kind "exceptions must derive from BaseException"

end Fault

/-- Fails with the fault `f` unless `b` holds. -/
def require {m : Type → Type} [Monad m] [MonadExcept Fault m] (b : Bool) (f : Fault) : m Unit :=
  if b then pure () else throw f

/-- The value of an option, or the fault `f`. -/
def demand {m : Type → Type} {α : Type} [Monad m] [MonadExcept Fault m] (o : Option α)
    (f : Fault) : m α :=
  match o with
  | some a => pure a
  | none => throw f

end Cartridge
