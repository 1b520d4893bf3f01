/-!
# Canonical codes

A code is given by the lengths of its words: words of one length are consecutive numbers in the
order of their symbols, and shorter words come first.  `Code.ofLengths?` refuses lengths that do
not fit together, and `Code.step` follows a word bit by bit.
-/

namespace Cartridge.Deflate

def longestWord : Nat := 15

/-- A code: how many words there are of each length from one on, and the symbols in the order of
their words. -/
structure Code where
  counts : List Nat
  symbols : Array Nat
  deriving Repr, Inhabited

namespace Code

def countsOf (lengths : List Nat) : List Nat :=
  (List.range longestWord).map fun l => lengths.count (l + 1)

def symbolsOf (lengths : List Nat) : Array Nat :=
  ((List.range longestWord).flatMap fun l =>
    lengths.zipIdx.filterMap fun e => if e.1 = l + 1 then some e.2 else none).toArray

/-- How much of the space of words of length `longestWord` is left over: negative if the words
overlap. -/
def spare (counts : List Nat) : Int := counts.foldl (fun (left : Int) (n : Nat) => 2 * left - n) 1

/-- The code with the given lengths.  The words must not overlap, and they must leave no gap;
a code without words and, unless `whole` is set, one with a single word of one bit are let pass. -/
def ofLengths? (whole : Bool) (lengths : List Nat) : Option Code :=
  let counts := countsOf lengths
  let used := counts.foldl (· + ·) 0
  let gap := spare counts
  if used = 0 ∨ gap = 0 ∨ (0 < gap ∧ !whole ∧ counts.head? = some 1 ∧ used = 1) then
    some ⟨counts, symbolsOf lengths⟩
  else none

/-- A place inside a word: the lengths still to come, the word so far less the first word of its
length, and the number of symbols with shorter words. -/
structure Cursor where
  counts : List Nat
  offset : Nat
  behind : Nat

inductive Found where
  | symbol (s : Nat)
  | within (c : Cursor)
  | nothing

def start (code : Code) : Cursor := ⟨code.counts, 0, 0⟩

def step (code : Code) (c : Cursor) (bit : Nat) : Found :=
  match c.counts with
  | [] => .nothing
  | n :: rest =>
    let word := c.offset * 2 + bit
    if word < n then
      match code.symbols[c.behind + word]? with
      | some s => .symbol s
      | none => .nothing
    else if rest.all (· = 0) then .nothing
    else .within ⟨rest, word - n, c.behind + n⟩

end Code

end Cartridge.Deflate
