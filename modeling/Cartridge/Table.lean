/-!
# Tables

A `Table` maps keys to values and remembers the order in which its keys first came.  Giving an
existing key a new value keeps the key's place (`Table.insert`).  Tables are what character sets,
pointer names and file listings are read into, and their order is visible in what is written from
them.
-/

namespace Cartridge

/-- A finite map with keys in the order of their first insertion. -/
structure Table (α β : Type) where
  entries : List (α × β)
  deriving DecidableEq, Repr, Inhabited

namespace Table

variable {α β : Type}

def empty : Table α β := ⟨[]⟩

instance : EmptyCollection (Table α β) := ⟨empty⟩

def keys (t : Table α β) : List α := t.entries.map (·.1)

def values (t : Table α β) : List β := t.entries.map (·.2)

def size (t : Table α β) : Nat := t.entries.length

/-- Changes the value of the first entry with key `k`, or adds one at the end. -/
def insertEntry [BEq α] (k : α) (v : β) : List (α × β) → List (α × β)
  | [] => [(k, v)]
  | (k', v') :: rest => if k' == k then (k', v) :: rest else (k', v') :: insertEntry k v rest

section

variable [BEq α]

def find? (t : Table α β) (k : α) : Option β := t.entries.lookup k

def contains (t : Table α β) (k : α) : Bool := (t.find? k).isSome

/-- Sets the value of a key; a new key goes last. -/
def insert (t : Table α β) (k : α) (v : β) : Table α β := ⟨insertEntry k v t.entries⟩

/-- The table of a list of pairs; of two pairs with one key the later value counts. -/
def ofList (pairs : List (α × β)) : Table α β :=
  pairs.foldl (fun t e => t.insert e.1 e.2) empty

/-- Adds the entries of `u` to `t`, those of `u` counting. -/
def update (t u : Table α β) : Table α β :=
  u.entries.foldl (fun t e => t.insert e.1 e.2) t

/-- All tables in one, later tables counting. -/
def merge (ts : List (Table α β)) : Table α β := ts.foldl update empty

def modify (t : Table α β) (k : α) (f : β → β) : Table α β :=
  match t.find? k with
  | some v => t.insert k (f v)
  | none => t

end

/-- Keys and values swapped; of two keys with one value the later counts. -/
def swap [BEq β] (t : Table α β) : Table β α := ofList (t.entries.map fun e => (e.2, e.1))

end Table

end Cartridge
