/-!
# Positions from either end

A position in a sequence may be negative and then counts from the end.  A cut at a position
outside the sequence is made at its nearer end; an element outside it does not exist.
-/

namespace Cartridge.Signed

variable {α : Type}

def cutAt (n : Nat) (i : Int) : Nat := if i < 0 then (i + n).toNat else min i.toNat n

def take (xs : List α) (i : Int) : List α := xs.take (cutAt xs.length i)

def drop (xs : List α) (i : Int) : List α := xs.drop (cutAt xs.length i)

def get? (xs : List α) (i : Int) : Option α :=
  let place := if i < 0 then i + xs.length else i
  if place < 0 then none else xs[place.toNat]?

end Cartridge.Signed
