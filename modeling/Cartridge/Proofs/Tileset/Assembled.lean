import Cartridge.Proofs.Bytes
import Cartridge.Proofs.Text.Lines
import Cartridge.Proofs.Text.Numeral
import Cartridge.Tileset.Script

/-!
# Tileset scripts assembled

A tileset script is written as instructions that the source itself defines.  Assembling the source
puts the body of the definition in the place of every instruction, with its operands filled in, and
gives the bytes of the script again.

Main result: `assemble_script`.
-/

open List

namespace Cartridge

open Text Bytes Assembly
open Assembly (hex)

/-! ### Assembling -/

namespace Assembly

variable {operands : List String}

structure Assembler where
  defined : Table (List Char) (List (List Char)) := ∅
  opened : Option (List Char × List (List Char)) := none
  output : List UInt8 := []
  deriving DecidableEq

def statement (line : List Char) : List Char × List (List Char) :=
  match splitFirst ' ' (line.dropWhile (· == ' ')) with
  | (name, none) | (name, some []) => (name, [])
  | (name, some operands) => (name, Text.splitOn ',' operands)

def substitute (operands : List (List Char)) : List Char → Option (List Char)
  | [] => some []
  | '\\' :: digit :: rest => do
    let i ← digitValue? digit
    let operand ← if i = 0 then none else operands[i - 1]?
    return operand ++ (← substitute operands rest)
  | c :: rest => (c :: ·) <$> substitute operands rest

def operandByte : List Char → Option UInt8
  | '$' :: digits => do (byteOf (← Numeral.read? 16 digits)).toOption
  | _ => none

def dataBytes (line : List Char) : Option (List UInt8) :=
  if (statement line).1 = "db".toList then (statement line).2.mapM operandByte else none

namespace Assembler

def lineBytes (a : Assembler) (line : List Char) : Option (List UInt8) :=
  match a.defined.find? (statement line).1 with
  | some body => List.flatten <$> body.mapM fun l => substitute (statement line).2 l >>= dataBytes
  | none => if (statement line).1 = [] then some [] else dataBytes line

def step (a : Assembler) (line : List Char) : Option Assembler :=
  match a.opened with
  | some (name, body) =>
    if (statement line).1 = "ENDM".toList then
      some { a with defined := a.defined.insert name body, opened := none }
    else some { a with opened := some (name, body ++ [line]) }
  | none =>
    if (statement line).1 = "MACRO".toList then
      some { a with opened := some ((statement line).2.flatten, []) }
    else (a.lineBytes line).map fun bytes => { a with output := a.output ++ bytes }

def run (a : Assembler) (lines : List (List Char)) : Option Assembler := lines.foldlM step a

theorem run_append {a b : Assembler} {lines : List (List Char)} (h : a.run lines = some b)
    (more : List (List Char)) : a.run (lines ++ more) = b.run more := by
  rw [run] at h
  rw [run, foldlM_append, h]
  rfl

end Assembler

/-- The bytes of source, in which every definition has to end. -/
def assemble (source : String) : Option (List UInt8) := do
  let a ← Assembler.run {} (Text.splitOn '\n' source.toList)
  if a.opened.isNone then some a.output else none

def Line.body (l : Line) : List Char := l.render.toList.dropLast

def Line.Single (l : Line) : Prop := l.render.toList = l.body ++ ['\n'] ∧ '\n' ∉ l.body

instance (l : Line) : Decidable l.Single := inferInstanceAs (Decidable (_ ∧ _))

theorem toList_render_cons (l : Line) (ls : List Line) :
    (render (l :: ls)).toList = l.render.toList ++ (render ls).toList := by
  rw [render, render, map_cons, String.join_cons, String.toList_append]

theorem splitOn_render {ls : List Line} (h : ∀ l ∈ ls, l.Single) :
    Text.splitOn '\n' (render ls).toList = ls.map Line.body ++ [[]] := by
  induction ls with
  | nil => rfl
  | cons l ls ih =>
    obtain ⟨⟨hend, hbody⟩, hrest⟩ := forall_mem_cons.1 h
    rw [toList_render_cons, hend, append_assoc, singleton_append,
      splitOn_append hbody, ih hrest, map_cons, cons_append]

theorem statement_indented {name : List Char} (hname : ' ' ∉ name) (hne : name ≠ [])
    (operands : List Char) :
    statement (' ' :: ' ' :: (name ++ ' ' :: operands)) =
      (name, if operands = [] then [] else Text.splitOn ',' operands) := by
  obtain ⟨c, rest, rfl⟩ := exists_cons_of_ne_nil hne
  have hc : c ≠ ' ' := fun h => hname (h ▸ mem_cons_self)
  have hdrop : (' ' :: ' ' :: (c :: rest ++ ' ' :: operands)).dropWhile (· == ' ') =
      c :: rest ++ ' ' :: operands := by
    simp [hc]
  rw [statement, hdrop, splitFirst_append hname]
  cases operands <;> rfl

theorem splitOn_intercalate (hne : operands ≠ []) (h : ∀ s ∈ operands, ',' ∉ s.toList) :
    Text.splitOn ',' (String.intercalate "," operands).toList = operands.map String.toList := by
  induction operands with
  | nil => exact absurd rfl hne
  | cons s operands ih =>
    obtain ⟨hs, hrest⟩ := forall_mem_cons.1 h
    cases operands with
    | nil => rw [String.intercalate_singleton, splitOn_of_notMem hs]; rfl
    | cons t operands =>
      have hmark : ",".toList = [','] := rfl
      rw [String.intercalate_cons_cons, String.toList_append, String.toList_append, hmark,
        append_assoc, singleton_append, splitOn_append hs, ih (cons_ne_nil _ _) hrest]
      rfl

theorem substitute_of_notMem {s : List Char} (h : '\\' ∉ s) (operands : List (List Char)) :
    substitute operands s = some s := by
  induction s with
  | nil => rfl
  | cons c s ih =>
    rw [mem_cons, not_or] at h
    rw [substitute, ih h.2]
    · rfl
    · rintro d rest rfl
      exact absurd rfl h.1

end Assembly

namespace Tileset

open Assembly (Assembler assemble)

variable {image : ByteArray} {pos n : Nat} {b x : UInt8} {bytes : List UInt8}
  {commands : List Command} {c : Command}

/-! ### Scripts -/

/-- The bytes of a script: commands of two bytes, and the end command. -/
inductive IsScript : List UInt8 → Prop
  | finish : IsScript [0xFF]
  | command {b x : UInt8} {rest : List UInt8} (hb : b ≠ 0xFF) (h : IsScript rest) :
      IsScript (b :: x :: rest)

def commandOf (b x : UInt8) : Command :=
  ⟨.ofByte b.toNat, if Opcode.ofByte b.toNat = .render then [b.toNat, x.toNat] else [x.toNat]⟩

theorem code?_ofByte (h : Opcode.ofByte n ≠ .render) : (Opcode.ofByte n).code? = some n := by
  unfold Opcode.ofByte at h ⊢
  cases hfind : Opcode.all.find? fun op => op.code? == some n with
  | none =>
    rw [hfind] at h
    exact absurd rfl h
  | some op =>
    have hcode := find?_some hfind
    exact eq_of_beq hcode

theorem ofByte_ne_finish (hb : b ≠ 0xFF) : Opcode.ofByte b.toNat ≠ .finish := by
  intro hop
  have hcode := code?_ofByte (n := b.toNat) (by rw [hop]; decide)
  rw [hop] at hcode
  exact hb (UInt8.toNat_inj.1 (Option.some.inj hcode).symm)

theorem readScript_finish (h : Holds image pos [0xFF]) :
    readScript image pos = .ok [⟨.finish, []⟩] := by
  obtain ⟨hpos, hbyte⟩ := h.getElem
  rw [readScript, dif_pos hpos, hbyte]
  rfl

theorem readScript_command (hb : b ≠ 0xFF) (h : Holds image pos [b, x]) :
    readScript image pos = (commandOf b x :: ·) <$> readScript image (pos + 2) := by
  obtain ⟨hpos, hbyte⟩ := h.getElem
  obtain ⟨hnext, hoperand⟩ := h.tail.getElem
  have hread : byteAt image (pos + 1) = .ok x.toNat := by
    rw [byteAt, dif_pos hnext, hoperand]
  have hfinish := ofByte_ne_finish hb
  rw [readScript, dif_pos hpos, hbyte, hread, commandOf]
  dsimp only
  generalize Opcode.ofByte b.toNat = op at hfinish
  cases op with
  | finish => exact absurd rfl hfinish
  | _ => cases readScript image (pos + 2) <;> rfl

/-- **Scripts are read**, every two bytes as a command. -/
theorem readScript_of_isScript (hscript : IsScript bytes) (hheld : Holds image pos bytes) :
    ∃ pairs : List (UInt8 × UInt8), (∀ e ∈ pairs, e.1 ≠ 0xFF) ∧
      bytes = (pairs.flatMap fun e => [e.1, e.2]) ++ [0xFF] ∧
      readScript image pos = .ok ((pairs.map fun e => commandOf e.1 e.2) ++ [⟨.finish, []⟩]) := by
  induction hscript generalizing pos with
  | finish => exact ⟨[], by simp, rfl, readScript_finish hheld⟩
  | @command b x rest hb _ ih =>
    obtain ⟨hfirst, hrest⟩ := (holds_append (l := [b, x])).1 hheld
    obtain ⟨pairs, hpairs, rfl, hread⟩ := ih hrest
    refine ⟨(b, x) :: pairs, forall_mem_cons.2 ⟨hb, hpairs⟩, rfl, ?_⟩
    have hread' : readScript image (pos + 2) = _ := hread
    rw [readScript_command hb hfirst, hread']
    rfl

theorem exists_isScript_of_readScript (h : readScript image pos = .ok commands) :
    ∃ bytes, IsScript bytes ∧ Holds image pos bytes := by
  fun_induction readScript image pos generalizing commands with
  | case1 pos hpos b =>
    rename_i hop
    refine ⟨[0xFF], .finish, ?_⟩
    have hcode := code?_ofByte (n := b) (by rw [hop]; decide)
    rw [hop] at hcode
    have hbyte : image[pos] = 0xFF := UInt8.toNat_inj.1 (Option.some.inj hcode).symm
    exact hbyte ▸ holds_singleton hpos
  | case2 pos hpos b hop =>
    rename_i ih
    simp only [bind_ok_iff, pure_ok_iff] at h
    obtain ⟨operand, hoperand, rest, hrest, -⟩ := h
    obtain ⟨bytes, hscript, hheld⟩ := ih hrest
    have hnext : pos + 1 < image.size := by
      by_contra hout
      rw [byteAt, dif_neg hout] at hoperand
      cases hoperand
    have hb : image[pos] ≠ 0xFF := by
      intro heq
      refine hop ?_
      change Opcode.ofByte image[pos].toNat = _
      rw [heq]
      decide
    exact ⟨image[pos] :: image[pos + 1] :: bytes, .command hb hscript,
      holds_append.2 ⟨holds_singleton hpos, holds_append.2 ⟨holds_singleton hnext, hheld⟩⟩⟩
  | case3 => cases h

/-! ### Written scripts -/

/-- A script as source: the definitions of the instructions, and a line for every command. -/
def scriptSource (commands : List Command) : String :=
  render (Opcode.all.flatMap Opcode.definition ++ commands.map Command.line)

def dataLine (n : Nat) : List Char := "  db ".toList ++ (hex 2 n).toList

def operandLine (i : Nat) : List Char := "  db \\".toList ++ (toString (i + 1)).toList

def bodyOf (op : Opcode) : List (List Char) :=
  op.code?.toList.map dataLine ++ (List.range op.operandCount).map operandLine

def bodies : Table (List Char) (List (List Char)) :=
  ⟨Opcode.all.map fun op => (op.name.toList, bodyOf op)⟩

theorem run_definitions :
    Assembler.run {} ((Opcode.all.flatMap Opcode.definition).map Line.body) =
      some { defined := bodies } := by
  decide +kernel

theorem find?_bodies (op : Opcode) : bodies.find? op.name.toList = some (bodyOf op) := by
  cases op <;> decide +kernel

theorem notMem_hex {c : Char} (hc : ∀ d < 16, d.digitChar.toUpper ≠ c) (hmark : c ≠ '$') (n : Nat) :
    c ∉ (hex 2 n).toList := by
  have hchars : (hex 2 n).toList = '$' :: (Numeral.upperHex 2 n).toList := by
    rw [hex, String.toList_append]
    rfl
  rw [hchars, mem_cons, not_or]
  exact ⟨hmark, Numeral.notMem_upperHex hc 2 n⟩

theorem operandByte_hex (hn : n < 0x100) :
    operandByte (hex 2 n).toList = some n.toUInt8 := by
  have hchars : (hex 2 n).toList = '$' :: (Numeral.upperHex 2 n).toList := by
    rw [hex, String.toList_append]
    rfl
  have hbyte : byteOf (n : Int) = .ok n.toUInt8 := by
    rw [byteOf, if_pos (by omega)]
    rfl
  rw [hchars, operandByte, Numeral.read?_upperHex]
  simp [hbyte, Except.toOption]

theorem dataBytes_dataLine (hn : n < 0x100) :
    dataBytes (dataLine n) = some [n.toUInt8] := by
  have hcomma : ',' ∉ (hex 2 n).toList := notMem_hex (by decide) (by decide) n
  have hne : (hex 2 n).toList ≠ [] := by simp [hex]
  have hstatement : statement (dataLine n) =
      ("db".toList, [(hex 2 n).toList]) := by
    have hname : ' ' ∉ "db".toList := by decide
    have hindented := statement_indented hname (by decide) (hex 2 n).toList
    rwa [if_neg hne, splitOn_of_notMem hcomma] at hindented
  rw [dataBytes, hstatement, mapM_cons, operandByte_hex hn]
  rfl

def operandTexts (ns : List Nat) : List (List Char) := ns.map fun (n : Nat) => (hex 2 n).toList

theorem substitute_dataLine (ns : List Nat) (n : Nat) :
    substitute (operandTexts ns) (dataLine n) = some (dataLine n) := by
  refine substitute_of_notMem ?_ _
  rw [dataLine, mem_append, not_or]
  exact ⟨by decide, notMem_hex (by decide) (by decide) n⟩

theorem substitute_operandLine {ns : List Nat} {i : Nat} (hi : i < 2) (hget : ns[i]? = some n) :
    substitute (operandTexts ns) (operandLine i) = some (dataLine n) := by
  have htext : (operandTexts ns)[i]? = some (hex 2 n).toList := by
    rw [operandTexts, getElem?_map, hget]
    rfl
  have hchars : operandLine i = "  db ".toList ++ ['\\', (i + 1).digitChar] := by
    obtain rfl | rfl : i = 0 ∨ i = 1 := by omega
    · decide +kernel
    · decide +kernel
  have hdigit : digitValue? (i + 1).digitChar = some (i + 1) := by
    obtain rfl | rfl : i = 0 ∨ i = 1 := by omega
    · decide
    · decide
  have hlast : substitute (operandTexts ns) ['\\', (i + 1).digitChar] =
      some (hex 2 n).toList := by
    rw [substitute, hdigit]
    simp [htext, substitute]
  rw [hchars]
  simp [substitute, hlast, dataLine]

theorem mapM_eq_some_of_forall₂ {α β : Type} {f : α → Option β} {as : List α} {bs : List β}
    (h : List.Forall₂ (fun a b => f a = some b) as bs) : as.mapM f = some bs := by
  induction h with
  | nil => rfl
  | cons hfirst _ ih => rw [mapM_cons, hfirst, ih]; rfl

/-- The bytes of a command: that of its kind, if it has one, and its operands. -/
def Command.stored (c : Command) : List UInt8 := (c.op.code?.toList ++ c.operands).map Nat.toUInt8

structure Command.Complete (c : Command) : Prop where
  count : c.operands.length = c.op.operandCount
  small : ∀ n ∈ c.operands, n < 0x100

theorem mapM_bodyOf (h : c.Complete) :
    (bodyOf c.op).mapM (fun l => substitute (operandTexts c.operands) l >>=
      dataBytes) = some (c.stored.map fun b => [b]) := by
  obtain ⟨op, operands⟩ := c
  have hcount : operands.length = op.operandCount := h.count
  have hcode : ∀ n ∈ op.code?, n < 0x100 := by cases op <;> decide
  have hfew : op.operandCount ≤ 2 := by cases op <;> decide
  refine mapM_eq_some_of_forall₂ ?_
  rw [Command.stored, map_append, map_append]
  refine rel_append ?_ ?_
  · cases hop : op.code? with
    | none => exact .nil
    | some n =>
      refine .cons ?_ .nil
      rw [substitute_dataLine]
      exact dataBytes_dataLine (hcode n hop)
  · rw [← hcount, forall₂_iff_get]
    refine ⟨by simp, fun i hi hi' => ?_⟩
    have hlt : i < operands.length := by simpa using hi
    have hget : operands[i]? = some operands[i] := getElem?_eq_getElem hlt
    have hline := substitute_operandLine (by omega) hget
    simp only [get_eq_getElem, getElem_map, getElem_range, hline]
    exact dataBytes_dataLine (h.small _ (getElem_mem hlt))

def Command.operandText (c : Command) : List Char :=
  (String.intercalate "," (c.operands.map fun (n : Nat) => hex 2 n)).toList

theorem toList_render_line (c : Command) : c.line.render.toList =
    (' ' :: ' ' :: (c.op.name.toList ++ ' ' :: c.operandText)) ++ ['\n'] := by
  have hrender : c.line.render = "  " ++ c.op.name ++ " " ++
    String.intercalate "," (c.operands.map fun (n : Nat) => hex 2 n) ++ "\n" := rfl
  simp [hrender, Command.operandText]

theorem body_line (c : Command) :
    c.line.body = ' ' :: ' ' :: (c.op.name.toList ++ ' ' :: c.operandText) := by
  rw [Line.body, toList_render_line, dropLast_concat]

theorem splitOn_operandText (c : Command) :
    (if c.operandText = [] then [] else Text.splitOn ',' c.operandText) =
      operandTexts c.operands := by
  unfold Command.operandText
  rcases c.operands with _ | ⟨n, ns⟩
  · rfl
  · have hcomma : ∀ s ∈ (n :: ns).map (fun (n : Nat) => hex 2 n), ',' ∉ s.toList := by
      intro s hs
      obtain ⟨m, -, rfl⟩ := mem_map.1 hs
      exact notMem_hex (by decide) (by decide) m
    have hne : (n :: ns).map (fun (n : Nat) => hex 2 n) ≠ [] := cons_ne_nil _ _
    have hsplit := splitOn_intercalate hne hcomma
    rw [if_neg, hsplit, map_map]
    · rfl
    · intro hnil
      rw [hnil] at hsplit
      have hempty : [] = (hex 2 n).toList := (List.cons.inj hsplit).1
      simp [hex] at hempty

theorem statement_line (c : Command) :
    statement c.line.body = (c.op.name.toList, operandTexts c.operands) := by
  have hname : ' ' ∉ c.op.name.toList := by cases c.op <;> decide
  have hne : c.op.name.toList ≠ [] := by cases c.op <;> decide
  rw [body_line, statement_indented hname hne, splitOn_operandText]

/-- **One command.**  Its line adds the bytes that it stands for. -/
theorem step_command (h : c.Complete) (output : List UInt8) :
    Assembler.step { defined := bodies, output } c.line.body =
      some { defined := bodies, output := output ++ c.stored } := by
  have hname : c.op.name.toList ≠ "MACRO".toList := by cases c.op <;> decide
  have hflat : (c.stored.map fun b => [b]).flatten = c.stored := by
    rw [← flatMap_def, flatMap_singleton']
  simp only [Assembler.step, statement_line, if_neg hname, Assembler.lineBytes, find?_bodies,
    mapM_bodyOf h]
  simp [hflat]

theorem step_blank (output : List UInt8) :
    Assembler.run { defined := bodies, output } [[]] = some { defined := bodies, output } := by
  have hblank : bodies.find? (statement []).1 = none := by decide +kernel
  simp only [Assembler.run, foldlM_cons, Assembler.step, Assembler.lineBytes, hblank]
  simp [statement, splitFirst]

theorem run_commands (h : ∀ c ∈ commands, c.Complete) (output : List UInt8) :
    Assembler.run { defined := bodies, output } ((commands.map Command.line).map
      Line.body) =
      some { defined := bodies, output := output ++ commands.flatMap Command.stored } := by
  induction commands generalizing output with
  | nil => simp [Assembler.run]
  | cons c commands ih =>
    obtain ⟨hc, hrest⟩ := forall_mem_cons.1 h
    have hrun := ih hrest (output ++ c.stored)
    rw [Assembler.run] at hrun ⊢
    rw [map_cons, map_cons, foldlM_cons, step_command hc, flatMap_cons, ← append_assoc, ← hrun]
    rfl

theorem single_line : c.line.Single := by
  refine ⟨by rw [body_line, toList_render_line], ?_⟩
  have hname : '\n' ∉ c.op.name.toList := by cases c.op <;> decide
  have hoperands : '\n' ∉ c.operandText := by
    refine notMem_intercalate (by decide) fun s hs => ?_
    obtain ⟨n, -, rfl⟩ := mem_map.1 hs
    exact notMem_hex (by decide) (by decide) n
  rw [body_line]
  simp [hname, hoperands]

theorem single_definitions : ∀ l ∈ Opcode.all.flatMap Opcode.definition, l.Single := by
  decide +kernel

theorem assemble_scriptSource (h : ∀ c ∈ commands, c.Complete) :
    assemble (scriptSource commands) = some (commands.flatMap Command.stored) := by
  have hsingle : ∀ l ∈ Opcode.all.flatMap Opcode.definition ++ commands.map Command.line,
      l.Single := by
    intro l hl
    obtain hl | hl := mem_append.1 hl
    · exact single_definitions l hl
    · obtain ⟨c, -, rfl⟩ := mem_map.1 hl
      exact single_line
  have hrun : Assembler.run {} ((Opcode.all.flatMap Opcode.definition ++
      commands.map Command.line).map Line.body ++ [[]]) =
      some { defined := bodies, output := commands.flatMap Command.stored } := by
    rw [map_append, append_assoc, Assembler.run_append run_definitions,
      Assembler.run_append (run_commands h [])]
    -- nothing stands behind the last line
    exact step_blank _
  rw [assemble, scriptSource, splitOn_render hsingle, hrun]
  rfl

theorem complete_commandOf (hb : b ≠ 0xFF) : (commandOf b x).Complete := by
  have hfinish := ofByte_ne_finish hb
  have hb' := b.toNat_lt
  have hx := x.toNat_lt
  rw [commandOf]
  generalize Opcode.ofByte b.toNat = op at hfinish
  cases op with
  | finish => exact absurd rfl hfinish
  | render => exact ⟨rfl, by simpa using ⟨hb', hx⟩⟩
  | _ => exact ⟨rfl, by simpa using hx⟩

theorem stored_commandOf (b x : UInt8) : (commandOf b x).stored = [b, x] := by
  rw [commandOf, Command.stored]
  by_cases hop : Opcode.ofByte b.toNat = .render
  · rw [hop]
    simp [Opcode.code?]
  · rw [if_neg hop, code?_ofByte hop]
    simp

/-- **Scripts are assembled to the bytes that they were read from.**  What is read is a script, and
every script is read; in both cases the source that is written of it is assembled to its bytes. -/
theorem assemble_script (image : ByteArray) (pos : Nat) :
    (∀ commands, readScript image pos = .ok commands → ∃ bytes, IsScript bytes ∧
      Holds image pos bytes ∧ assemble (scriptSource commands) = some bytes) ∧
    ∀ bytes, IsScript bytes → Holds image pos bytes → ∃ commands,
      readScript image pos = .ok commands ∧ assemble (scriptSource commands) = some bytes := by
  have hscripts : ∀ bytes, IsScript bytes → Holds image pos bytes → ∃ commands,
      readScript image pos = .ok commands ∧ assemble (scriptSource commands) = some bytes := by
    intro bytes hscript hheld
    obtain ⟨pairs, hpairs, rfl, hread⟩ := readScript_of_isScript hscript hheld
    have hcomplete : ∀ c ∈ (pairs.map fun e => commandOf e.1 e.2) ++ [⟨.finish, []⟩],
        c.Complete := by
      intro c hc
      obtain hc | hc := List.mem_append.1 hc
      · obtain ⟨e, he, rfl⟩ := List.mem_map.1 hc
        exact complete_commandOf (hpairs e he)
      · exact List.mem_singleton.1 hc ▸ ⟨rfl, by simp⟩
    refine ⟨_, hread, ?_⟩
    rw [assemble_scriptSource hcomplete, List.flatMap_append, List.flatMap_map]
    simp only [stored_commandOf]
    rfl
  refine ⟨fun commands hread => ?_, hscripts⟩
  obtain ⟨bytes, hscript, hheld⟩ := exists_isScript_of_readScript hread
  obtain ⟨commands', hread', hassemble⟩ := hscripts bytes hscript hheld
  obtain rfl := Except.ok.inj (hread.symm.trans hread')
  exact ⟨bytes, hscript, hheld, hassemble⟩

/-- A script with commands of all kinds, in which operands look like commands. -/
def mixedScript : List UInt8 := [0xFD, 0xFF, 0xFB, 0x01, 0x12, 0xFF, 0xFE, 0xFE, 0xFC, 0xFD, 0xFF]

theorem assemble_script_mixed : IsScript mixedScript ∧
    ∃ commands, readScript mixedScript.toByteArray 0 = .ok commands ∧
      assemble (scriptSource commands) = some mixedScript := by
  have hscript : IsScript mixedScript :=
    .command (by decide) (.command (by decide) (.command (by decide) (.command (by decide)
      (.command (by decide) .finish))))
  exact ⟨hscript, (assemble_script _ 0).2 mixedScript hscript (holds_toByteArray _)⟩

end Tileset

end Cartridge
