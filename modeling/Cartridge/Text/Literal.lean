import Cartridge.Text.Escape
import Cartridge.Text.Real
import Cartridge.Value

/-!
# Literals

A literal is a value written out: numbers, quoted text, the names of nothing, true and false, lists
in square brackets and tuples in round ones.  `Literal.read` cuts text into tokens and reads a
literal from them.  Text that is no expression at all is malformed (`Cause.literal`); an
expression that is more than a literal, such as a name or a sum, is refused (`Cause.value`).
-/

namespace Cartridge.Text.Literal

/-! ### Tokens -/

inductive Token where
  | value (v : Value)
  /-- A text, or bytes if `binary`; neighbours of one kind are joined. -/
  | quoted (binary : Bool) (s : List Char)
  | name (s : String)
  | mark (s : String)
  deriving Inhabited

def malformed : Fault := .plain .literal

def startsName (c : Char) : Bool := c.isAlpha || c == '_' || 128 ≤ c.toNat

def continuesName (c : Char) : Bool := startsName c || c.isDigit

/-- A number of digits, letters, points and signs after an exponent mark, and the rest. -/
def numberText : List Char → List Char × List Char
  | [] => ([], [])
  | [c] => if continuesName c || c == '.' then ([c], []) else ([], [c])
  | c :: d :: rest =>
    if (c = 'e' ∨ c = 'E') ∧ (d = '+' ∨ d = '-') then
      let (cs, tail) := numberText rest
      (c :: d :: cs, tail)
    else if continuesName c || c == '.' then
      let (cs, tail) := numberText (d :: rest)
      (c :: cs, tail)
    else ([], c :: d :: rest)

def number? (s : List Char) : Option Value :=
  match s with
  | '0' :: x :: _ =>
    match [16, 8, 2].find? fun base => (Numeral.markOf? base) == some x.toLower with
    | some base => (Numeral.read? base s).map .int
    | none =>
      if s.all fun c => c == '0' || c == '_' then (Numeral.read? 10 s).map .int
      else if s.all fun c => c.isDigit || c == '_' then none
      else (readReal? (String.ofList s)).map .real
  | _ => ((Numeral.read? 10 s).map Value.int).or ((readReal? (String.ofList s)).map .real)

/-- The end of a quoted text, whose opening is behind: its body and the rest. -/
def quotedBody (s : List Char) : Option (List Char × List Char) :=
  match s with
  | a :: b :: c :: rest =>
    if a = b ∧ b = c ∧ (a = '"' ∨ a = '\'') then tripleBody a rest else single (a :: b :: c :: rest)
  | s => single s
where
  single : List Char → Option (List Char × List Char)
    | q :: rest => body? q rest
    | [] => none
  tripleBody (q : Char) : List Char → Option (List Char × List Char)
    | [] => none
    | '\\' :: c :: rest => (tripleBody q rest).map fun p => ('\\' :: c :: p.1, p.2)
    | c :: rest =>
      if c = q ∧ rest.take 2 = [q, q] then some ([], rest.drop 2)
      else (tripleBody q rest).map fun p => (c :: p.1, p.2)

/-- The token that starts with the letters `lead` and then a quote, and the rest. -/
def quotedToken (lead : List Char) (s : List Char) : Except Fault (Token × List Char) := do
  let letters := lead.map Char.toLower
  let (body, rest) ← demand (quotedBody s) malformed
  if !([[], ['r'], ['u'], ['b'], ['r', 'b'], ['b', 'r']].contains letters) then throw malformed
  let text ← if letters.contains 'r' then pure body else unescape body
  return (.quoted (letters.contains 'b') text, rest)

def token (c : Char) (s : List Char) : Except Fault (Token × List Char) :=
  if c.isDigit || (c == '.' && ((s.drop 1).head?.map Char.isDigit).getD false) then do
    let (text, rest) := numberText s
    let v ← demand (number? text) malformed
    return (.value v, rest)
  else if c = '"' ∨ c = '\'' then quotedToken [] s
  else if startsName c then
    let word := s.takeWhile continuesName
    let rest := s.drop word.length
    match rest with
    | '"' :: _ | '\'' :: _ => quotedToken word rest
    | _ => .ok (.name (String.ofList word), rest)
  else if "()[],.+-*/%@|&^~<>=!".toList.contains c then .ok (.mark c.toString, s.drop 1)
  else .error malformed

def tokens : Nat → List Char → Except Fault (List Token)
  | 0, _ => .ok []
  | fuel + 1, s =>
    match s.dropWhile fun c => c == ' ' || c == '\t' || c == Char.ofNat 12 with
    | [] => .ok []
    | '#' :: _ => .ok []
    | c :: rest => do
      let (t, rest) ← token c (c :: rest)
      return t :: (← tokens fuel rest)

/-! ### Expressions -/

/-- A value, or an expression that is more than a literal. -/
abbrev Node := Option Value

def isMark (t : Token) (s : String) : Bool :=
  match t with
  | .mark m => m == s
  | _ => false

def named (s : String) : Node :=
  if s = "None" then some .none
  else if s = "True" then some (.flag true)
  else if s = "False" then some (.flag false)
  else none

def reserved : List String :=
  ["and", "as", "assert", "async", "await", "break", "class", "continue", "def", "del", "elif",
    "else", "except", "finally", "for", "from", "global", "if", "import", "in", "is", "nonlocal",
    "or", "pass", "raise", "return", "try", "while", "with", "yield"]

def signed (negative : Bool) (n : Node) : Node :=
  match n with
  | some (.int k) => some (.int (if negative then -k else k))
  | some (.real x) => some (.real (if negative then -x else x))
  | _ => none

/-- Joins the quoted texts at the start of tokens to one, and gives the rest. -/
def joinQuoted (binary : Bool) (s : List Char) : List Token → Except Fault (Node × List Token)
  | .quoted b more :: rest => if b = binary then joinQuoted binary (s ++ more) rest else .error malformed
  | rest =>
    if binary then
      if s.all (·.toNat < 256) then .ok (some (.bytes (s.map fun c => c.toNat.toUInt8)), rest)
      else .error malformed
    else .ok (some (.text (String.ofList s)), rest)

/-- Skips the marks of a binary operator; `none` if there is none. -/
def operator? : List Token → Option (List Token)
  | .mark a :: rest =>
    if ["+", "-", "/", "%", "@", "|", "&", "^"].contains a then some rest
    else if a = "*" then some (match rest with
      | .mark "*" :: rest => rest
      | rest => rest)
    else if a = "<" ∨ a = ">" then some (match rest with
      | .mark b :: tail => if b = "=" ∨ b = a then tail else rest
      | rest => rest)
    else if a = "=" ∨ a = "!" then match rest with
      | .mark "=" :: rest => some rest
      | _ => none
    else none
  | .name "and" :: rest | .name "or" :: rest | .name "in" :: rest => some rest
  | .name "is" :: .name "not" :: rest | .name "not" :: .name "in" :: rest => some rest
  | .name "is" :: rest => some rest
  | _ => none

mutual

def expression : Nat → List Token → Except Fault (Node × List Token)
  | 0, _ => .error malformed
  | fuel + 1, ts => do
    let (n, rest) ← unary fuel ts
    match operator? rest with
    | none => return (n, rest)
    | some rest =>
      let (_, rest) ← expression fuel rest
      return (none, rest)

def unary : Nat → List Token → Except Fault (Node × List Token)
  | 0, _ => .error malformed
  | fuel + 1, ts =>
    match ts with
    | .mark "-" :: rest => do
      let (n, rest) ← unary fuel rest
      return (signed true n, rest)
    | .mark "+" :: rest => do
      let (n, rest) ← unary fuel rest
      return (signed false n, rest)
    | .mark "~" :: rest | .name "not" :: rest => do
      let (_, rest) ← unary fuel rest
      return (none, rest)
    | ts => do
      let (n, rest) ← atom fuel ts
      trailers fuel n rest

def atom : Nat → List Token → Except Fault (Node × List Token)
  | 0, _ => .error malformed
  | fuel + 1, ts =>
    match ts with
    | .value v :: rest => .ok (some v, rest)
    | .quoted b s :: rest => joinQuoted b s rest
    | .name s :: rest => if reserved.contains s then .error malformed else .ok (named s, rest)
    | .mark "(" :: rest => do
      let (ns, comma, rest) ← elements fuel ")" rest
      match ns, comma with
      | [n], false => return (n, rest)
      | ns, _ => return ((ns.mapM id).map .tuple, rest)
    | .mark "[" :: rest => do
      let (ns, _, rest) ← elements fuel "]" rest
      return ((ns.mapM id).map .list, rest)
    | _ => .error malformed

/-- What may follow an expression: calls, indices and members. -/
def trailers : Nat → Node → List Token → Except Fault (Node × List Token)
  | 0, _, _ => .error malformed
  | fuel + 1, n, ts =>
    match ts with
    | .mark "(" :: rest => do
      let (_, _, rest) ← elements fuel ")" rest
      trailers fuel none rest
    | .mark "[" :: rest => do
      let (_, _, rest) ← elements fuel "]" rest
      trailers fuel none rest
    | .mark "." :: .name _ :: rest => trailers fuel none rest
    | ts => .ok (n, ts)

/-- Elements up to a closing mark: the elements, whether a comma came last, and the rest. -/
def elements : Nat → String → List Token → Except Fault (List Node × Bool × List Token)
  | 0, _, _ => .error malformed
  | fuel + 1, close, ts =>
    match ts with
    | [] => .error malformed
    | t :: rest =>
      if isMark t close then .ok ([], false, rest)
      else do
        let (n, rest) ← expression fuel ts
        match rest with
        | [] => throw malformed
        | t :: rest =>
          if isMark t close then return ([n], false, rest)
          else if isMark t "," then
            let (ns, comma, rest) ← elements fuel close rest
            return (n :: ns, comma || ns.isEmpty || 0 < ns.length, rest)
          else throw malformed

end

/-- Expressions separated by commas up to the end: the expressions, and whether there is a comma. -/
def topLevel : Nat → List Token → Except Fault (List Node × Bool)
  | 0, _ => .error malformed
  | fuel + 1, ts => do
    let (n, rest) ← expression fuel ts
    match rest with
    | [] => return ([n], false)
    | [t] => if isMark t "," then return ([n], true) else throw malformed
    | t :: rest =>
      if isMark t "," then
        let (ns, _) ← topLevel fuel rest
        return (n :: ns, true)
      else throw malformed

def read (s : List Char) : Except Fault Value := do
  if s.contains (Char.ofNat 0) then throw (.plain .value)
  let ts ← tokens (s.length + 1) s
  let (ns, comma) ← topLevel (4 * ts.length + 8) ts
  match ns, comma with
  | [n], false => demand n (.plain .value)
  | ns, _ => demand ((ns.mapM id).map .tuple) (.plain .value)

end Cartridge.Text.Literal
