import Cartridge.Dialog.Build
import Cartridge.Dialog.Survey
import Cartridge.Proofs.Bytes
import Cartridge.Proofs.Text.Lines
import Cartridge.Proofs.Text.Numeral
import Cartridge.Proofs.Workspace

/-!
# Dialog text shown and set again

Stored text is a sequence of signs: letters, bytes without meaning and commands with arguments.
Reading shows every sign as characters, and setting the characters gives the sign again.

Main result: `addEntry_pass`.
-/

open List

namespace Cartridge.Dialog

open Text.Numeral Charset Table Script Bytes Lettering
open Tileset (Holds holds_append)
open String (toList_append toList_inj toList_ofList)

variable {argument : List Char} {b sides : UInt8} {c kind : Char} {name s : String}
  {r : List UInt8 × Int}

/-- The text of a letter or of a kanji.  The codes of commands are no letters. -/
def Font.glyph? (f : Font) (kanji : Bool) (code : Int) : Option String :=
  if kanji then f.kanji.find? code
  else if 0xCC ≤ code ∧ code ≤ 0xD3 then none
  else f.letters.find? code

/-- A sign of stored text. -/
inductive Sign where
  | letter (b : UInt8)
  | unmapped (b : UInt8)
  | control (b : UInt8)
  | speed (n : UInt8)
  | insertion (low high : UInt8)
  | portrait (sides number face : UInt8)
  | kanji (n : UInt8)
  deriving DecidableEq, Repr

namespace Sign

def bytes : Sign → List UInt8
  | letter b | unmapped b | control b => [b]
  | speed n => [speedCode, n]
  | insertion low high => [insertCode, low, high]
  | portrait sides number face => [portraitCode, sides, number, face]
  | kanji n => [kanjiCode, n]

def address (low high : UInt8) : Nat := low.toNat + 0x100 * high.toNat

def shown (f : Font) (ns : Names) : Sign → List Char
  | letter b => ((f.letters.find? b.toNat).getD "").toList
  | unmapped b => bracketed ("$" ++ digits b.toNat)
  | control b => bracketed (digits b.toNat)
  | speed n => bracketed ("S" ++ digits n.toNat)
  | insertion low high => bracketed ("&" ++ (ns.known.find? (address low high)).getD "")
  | portrait sides number face =>
    bracketed ("@" ++ (sidesOf? sides.toNat).getD "" ++ "," ++
      (f.portraits.find? number.toNat).getD "" ++ "," ++ digits face.toNat)
  | kanji n => ((f.kanji.find? n.toNat).getD "").toList

/-- A sign that the font and the names know how to show. -/
def Known (f : Font) (ns : Names) : Sign → Prop
  | letter b => ∃ s, f.letters.find? b.toNat = some s
  | unmapped b => f.letters.find? b.toNat = none ∧ (b.toNat < 0xCC ∨ 0xD3 < b.toNat)
  | control b => b = 0xCD ∨ b = 0xCF ∨ b = 0xD1
  | speed n => n ≠ 0
  | insertion low high =>
    0x1000 ≤ address low high ∧ ∃ name, ns.known.find? (address low high) = some name
  | portrait sides number _ =>
    sides ∈ [0x00, 0x01, 0x10, 0x11, 0xFF] ∧ ∃ name, f.portraits.find? number.toNat = some name
  | kanji n => ∃ s, f.kanji.find? n.toNat = some s

/-- A command that shows nothing: the speed zero and the insertion of address zero. -/
def isSilent : Sign → Bool
  | speed n => n == 0
  | insertion low high => address low high == 0
  | _ => false

/-- A sign whose arguments the font knows. -/
def Legible (f : Font) : Sign → Prop
  | letter b => ∃ s, f.glyph? false b.toNat = some s
  | unmapped b => f.glyph? false b.toNat = none ∧ (b.toNat < 0xCC ∨ 0xD3 < b.toNat)
  | control b => b = 0xCD ∨ b = 0xCF ∨ b = 0xD1
  | speed _ | insertion _ _ => True
  | portrait sides number _ =>
    sides ∈ [0x00, 0x01, 0x10, 0x11, 0xFF] ∧ ∃ name, f.portraits.find? number.toNat = some name
  | kanji n => ∃ s, f.glyph? true n.toNat = some s

def namesAfter (ns : Names) (g : Sign) : Names :=
  if g.isSilent then ns
  else match g with
    | insertion low high => (ns.name (address low high)).2
    | _ => ns

/-- Signs and the end of a text with its end code, as they are stored. -/
def stored (signs : List Sign) (code : UInt8) : List UInt8 :=
  signs.flatMap bytes ++ [endCode, code]

/-- The text of signs with an end code. -/
def text (f : Font) (ns : Names) (signs : List Sign) (code : UInt8) : List Char :=
  withEnd (signs.flatMap (shown f ns)) code.toNat

end Sign

/-- A font, names and a typeface that go together: the typeface is that of the font, no two codes
have one character, and no character is taken for a command. -/
structure Agree (f : Font) (ns : Names) (t : Typeface) : Prop where
  letters : t.lettering.letters = f.letters.swap
  kanji : t.lettering.kanji = f.kanji.swap
  letters_apart : ∀ e ∈ f.letters.entries, ∀ e' ∈ f.letters.entries, e.2 = e'.2 → e.1 = e'.1
  kanji_apart : ∀ e ∈ f.kanji.entries, ∀ e' ∈ f.kanji.entries, e.2 = e'.2 → e.1 = e'.1
  disjoint : ∀ e ∈ f.letters.entries, ∀ e' ∈ f.kanji.entries, e.2 ≠ e'.2
  single : ∀ e ∈ f.letters.entries ++ f.kanji.entries, ∃ c, e.2.toList = [c] ∧ c ≠ '<'
  /-- No letter has the code of a command. -/
  codes : ∀ e ∈ f.letters.entries, e.1 < 0xCC ∨ 0xD3 < e.1
  /-- The portraits are read from one list, in which no two codes have one name. -/
  portraits : ∃ list, parse codeOf list = .ok f.portraits ∧
    parseSwapped nameOf list = .ok t.portraits ∧
    ∀ l ∈ entryLines list, ∀ l' ∈ entryLines list, textOf l = textOf l' → codeOf l = codeOf l'
  portraits_plain : ∀ e ∈ f.portraits.entries, ',' ∉ e.2.toList ∧ '>' ∉ e.2.toList
  names : ∀ a name, ns.known.find? a = some name →
    t.pointers.find? name = some (markedHex a) ∧ '>' ∉ name.toList

/-- A typeface that is made for a font: it is read from the same lists, no two codes have one
character and no two portraits one name, and neither is taken for a command. -/
structure Typeface.Sets (t : Typeface) (f : Font) : Prop where
  letters : t.lettering.letters = f.letters.swap
  kanji : t.lettering.kanji = f.kanji.swap
  letters_apart : ∀ e ∈ f.letters.entries, ∀ e' ∈ f.letters.entries, e.2 = e'.2 → e.1 = e'.1
  kanji_apart : ∀ e ∈ f.kanji.entries, ∀ e' ∈ f.kanji.entries, e.2 = e'.2 → e.1 = e'.1
  disjoint : ∀ e ∈ f.letters.entries, ∀ e' ∈ f.kanji.entries, e.2 ≠ e'.2
  single : ∀ e ∈ f.letters.entries ++ f.kanji.entries, ∃ c, e.2.toList = [c] ∧ c ≠ '<'
  portraits : ∃ list, parse codeOf list = .ok f.portraits ∧
    parseSwapped nameOf list = .ok t.portraits ∧
    ∀ l ∈ entryLines list, ∀ l' ∈ entryLines list, textOf l = textOf l' → codeOf l = codeOf l'
  portraits_plain : ∀ e ∈ f.portraits.entries, ',' ∉ e.2.toList ∧ '>' ∉ e.2.toList

variable {f : Font} {ns : Names} {t : Typeface} {image : ByteArray} {pos left next x y : Nat}
  {done rest : List Char} {g : Sign} {signs : List Sign} {code : UInt8}

theorem Agree.sets (h : Agree f ns t) : t.Sets f where
  letters := h.letters
  kanji := h.kanji
  letters_apart := h.letters_apart
  kanji_apart := h.kanji_apart
  disjoint := h.disjoint
  single := h.single
  portraits := h.portraits
  portraits_plain := h.portraits_plain

/-! ### Reading -/

theorem byte?_of_holds {l : List UInt8} (h : Holds image pos (b :: l)) :
    byte? image pos = some b.toNat := by
  obtain ⟨hpos, hb⟩ := h.getElem
  rw [byte?, dif_pos hpos, hb]

theorem readToken_end (h : Holds image pos [endCode, code]) :
    readToken f image endCode.toNat (pos + 1) = .stop code.toNat (pos + 2) := by
  change stopToken image _ = _
  rw [stopToken, byte?_of_holds h.tail]

theorem readToken_plain {b : Nat} (hb : b < 0xCC ∨ 0xD3 < b) :
    readToken f image b pos =
      match f.letters.find? b with
      | some s => .shown s.toList pos
      | none => .unknown := by
  unfold readToken
  split <;> first | omega | rfl

theorem readTokens_shown {b : Nat} {s : List Char} (hbyte : byte? image pos = some b)
    (hblank : done ≠ [' ', ' ', ' ', ' '])
    (htoken : readToken f image b (pos + 1) = .shown s next) :
    readTokens f image false (left + 1) pos done ns =
      readTokens f image false left next (s.reverse ++ done) ns := by
  simp only [readTokens, hbyte, if_neg hblank, htoken]

theorem glyph?_letter : f.glyph? false b.toNat = some s ↔
    (b.toNat < 0xCC ∨ 0xD3 < b.toNat) ∧ f.letters.find? b.toNat = some s := by
  by_cases hb : b.toNat < 0xCC ∨ 0xD3 < b.toNat
  · simp only [Font.glyph?, hb, true_and]
    rw [if_neg (by simp), if_neg (by omega)]
  · simp only [Font.glyph?, hb, false_and, iff_false]
    rw [if_neg (by simp), if_pos (by omega)]
    simp

theorem glyph?_letter_eq_none (hb : b.toNat < 0xCC ∨ 0xD3 < b.toNat) :
    f.glyph? false b.toNat = none ↔ f.letters.find? b.toNat = none := by
  simp only [Font.glyph?]
  rw [if_neg (by simp), if_neg (by omega)]

theorem Names.find?_name (ns : Names) (a : Nat) : (ns.name a).2.known.find? a = some (ns.name a).1 := by
  unfold Names.name
  split
  case h_1 hname => exact hname
  case h_2 => exact find?_insert_self ..

theorem digits_control : digits 0xCD = "CD" ∧ digits 0xCF = "CF" ∧ digits 0xD1 = "D1" := by
  decide +kernel

theorem exists_sidesOf (h : sides ∈ [0x00, 0x01, 0x10, 0x11, 0xFF]) :
    ∃ s, sidesOf? sides.toNat = some s ∧ sides? s.toList = some sides ∧
      ',' ∉ s.toList ∧ '>' ∉ s.toList := by
  simp only [mem_cons, not_mem_nil, or_false] at h
  obtain rfl | rfl | rfl | rfl | rfl := h
  · exact ⟨"LL", rfl, rfl, by decide⟩
  · exact ⟨"LR", rfl, rfl, by decide⟩
  · exact ⟨"RL", rfl, rfl, by decide⟩
  · exact ⟨"RR", rfl, rfl, by decide⟩
  · exact ⟨"CC", rfl, rfl, by decide⟩

namespace Sign

/-- **Reading one sign** shows it, unless it is silent, and goes on behind it. -/
theorem readTokens_step (hg : g.Legible f) (hheld : Holds image pos g.bytes)
    (hblank : done ≠ [' ', ' ', ' ', ' ']) :
    readTokens f image false (left + 1) pos done ns =
      readTokens f image false left (pos + g.bytes.length)
        ((if g.isSilent then [] else g.shown f (g.namesAfter ns)).reverse ++ done)
        (g.namesAfter ns) := by
  cases g with
  | letter b =>
    obtain ⟨s, hs⟩ := hg
    obtain ⟨hb, hs⟩ := glyph?_letter.1 hs
    refine readTokens_shown (byte?_of_holds hheld) hblank ?_
    rw [readToken_plain hb]
    simp only [shown, hs]
    rfl
  | unmapped b =>
    obtain ⟨hnone, hb⟩ := hg
    rw [glyph?_letter_eq_none hb] at hnone
    simp only [readTokens, byte?_of_holds hheld, if_neg hblank, readToken_plain hb, hnone]
    rfl
  | control b =>
    refine readTokens_shown (byte?_of_holds hheld) hblank ?_
    obtain rfl | rfl | rfl := hg
    · exact congrArg (fun s => Token.shown (bracketed s) (pos + 1)) digits_control.1.symm
    · exact congrArg (fun s => Token.shown (bracketed s) (pos + 1)) digits_control.2.1.symm
    · exact congrArg (fun s => Token.shown (bracketed s) (pos + 1)) digits_control.2.2.symm
  | speed n =>
    have hafter : (speed n).namesAfter ns = ns := ite_self ns
    rw [hafter]
    refine readTokens_shown (byte?_of_holds hheld) hblank ?_
    change speedToken image (pos + 1) = _
    rw [speedToken, byte?_of_holds hheld.tail]
    have hn : n.toNat = 0 ↔ (n == 0) = true := by
      rw [beq_iff_eq, ← UInt8.toNat_inj]
      rfl
    simp only [isSilent, ← hn]
    rfl
  | insertion low high =>
    have htoken : readToken f image insertCode.toNat (pos + 1) =
        if address low high = 0 then .shown [] (pos + 3)
        else .insertion (address low high) (pos + 3) := by
      change insertionToken image (pos + 1) = _
      rw [insertionToken, byte?_of_holds hheld.tail, byte?_of_holds hheld.tail.tail]
      rfl
    by_cases hzero : address low high = 0
    · have hsilent : (insertion low high).isSilent = true := beq_iff_eq.2 hzero
      rw [if_pos hzero] at htoken
      rw [namesAfter, if_pos hsilent, if_pos hsilent]
      exact readTokens_shown (byte?_of_holds hheld) hblank htoken
    · have hsilent : (insertion low high).isSilent ≠ true := mt beq_iff_eq.1 hzero
      rw [if_neg hzero] at htoken
      rw [namesAfter, if_neg hsilent, if_neg hsilent, shown, Names.find?_name]
      simp only [readTokens, byte?_of_holds hheld, if_neg hblank, htoken]
      rfl
  | portrait sides number face =>
    obtain ⟨hsides, name, hname⟩ := hg
    obtain ⟨s, hs, -⟩ := exists_sidesOf hsides
    refine readTokens_shown (byte?_of_holds hheld) hblank ?_
    change portraitToken f image (pos + 1) = _
    rw [portraitToken, byte?_of_holds hheld.tail]
    simp only [hs, byte?_of_holds hheld.tail.tail, hname, byte?_of_holds hheld.tail.tail.tail,
      shown, Option.getD_some]
    rfl
  | kanji n =>
    obtain ⟨s, hs⟩ := hg
    have hs : f.kanji.find? n.toNat = some s := hs
    refine readTokens_shown (byte?_of_holds hheld) hblank ?_
    change kanjiToken f image (pos + 1) = _
    rw [kanjiToken, byte?_of_holds hheld.tail]
    simp only [hs, shown, Option.getD_some]
    rfl

theorem Known.read (hagree : Agree f ns t) (hknown : g.Known f ns) :
    g.Legible f ∧ g.isSilent = false ∧ g.namesAfter ns = ns := by
  cases g with
  | letter b =>
    obtain ⟨s, hs⟩ := hknown
    -- A letter could hide a command only with its code.
    have hcode := hagree.codes _ (mem_of_find? hs)
    exact ⟨⟨s, glyph?_letter.2 ⟨by omega, hs⟩⟩, rfl, rfl⟩
  | unmapped b => exact ⟨⟨(glyph?_letter_eq_none hknown.2).2 hknown.1, hknown.2⟩, rfl, rfl⟩
  | speed n => exact ⟨trivial, beq_eq_false_iff_ne.2 hknown, ite_self ns⟩
  | insertion low high =>
    obtain ⟨haddress, name, hname⟩ := hknown
    refine ⟨trivial, beq_eq_false_iff_ne.2 (by omega), ?_⟩
    have hafter : (ns.name (address low high)).2 = ns := by rw [Names.name, hname]
    simp only [namesAfter, hafter, ite_self]
  | control | portrait | kanji => exact ⟨hknown, rfl, rfl⟩

end Sign

theorem readTokens_signs (hagree : Agree f ns t) (hknown : ∀ g ∈ signs, g.Known f ns)
    (hheld : Holds image pos (signs.flatMap Sign.bytes))
    (hblank : ¬"    ".toList <+: done.reverse ++ signs.flatMap (Sign.shown f ns)) :
    readTokens f image false (signs.length + left) pos done ns =
      readTokens f image false left (pos + (signs.flatMap Sign.bytes).length)
        ((signs.flatMap (Sign.shown f ns)).reverse ++ done) ns := by
  induction signs generalizing pos done with
  | nil => rw [length_nil, Nat.zero_add]; rfl
  | cons g signs ih =>
    obtain ⟨hg, hsigns⟩ := forall_mem_cons.1 hknown
    rw [flatMap_cons, holds_append] at hheld
    -- What was shown so far starts the text, which starts with no blanks, so reading goes on.
    have hdone : done ≠ [' ', ' ', ' ', ' '] := by
      rintro rfl
      exact hblank (prefix_append ..)
    have hrest : ¬"    ".toList <+:
        ((g.shown f ns).reverse ++ done).reverse ++ signs.flatMap (Sign.shown f ns) := by
      simpa [flatMap_cons] using hblank
    obtain ⟨hlegible, hshown, hafter⟩ := hg.read hagree
    rw [length_cons, Nat.add_right_comm, Sign.readTokens_step hlegible hheld.1 hdone, hafter,
      hshown, if_neg Bool.false_ne_true, ih hsigns hheld.2 hrest]
    simp [flatMap_cons, Nat.add_assoc]

theorem body_prefix_text (f : Font) (ns : Names) (signs : List Sign) (code : UInt8) :
    signs.flatMap (Sign.shown f ns) <+: Sign.text f ns signs code := by
  unfold Sign.text withEnd
  split
  · exact prefix_refl _
  · exact prefix_append ..

theorem readSegment_signs {room : Int} (hagree : Agree f ns t)
    (hknown : ∀ g ∈ signs, g.Known f ns) (hcode : code ≤ 4)
    (hheld : Holds image pos (Sign.stored signs code)) (hroom : signs.length + 1 ≤ room)
    (hblank : ¬"    ".toList <+: Sign.text f ns signs code) :
    readSegment f image false room pos ns =
      .ok ⟨true, Sign.text f ns signs code, pos + (Sign.stored signs code).length, ns⟩ := by
  -- The end shows nothing in front of the signs.
  have hbody : ¬"    ".toList <+: signs.flatMap (Sign.shown f ns) := fun h =>
    hblank (h.trans (body_prefix_text f ns signs code))
  obtain ⟨left, hleft⟩ : ∃ left, room.toNat = signs.length + (left + 1) :=
    ⟨room.toNat - signs.length - 1, by omega⟩
  obtain ⟨hsigns, hend⟩ := holds_append.1 hheld
  have hdone : (signs.flatMap (Sign.shown f ns)).reverse ++ [] ≠ [' ', ' ', ' ', ' '] := by
    rw [append_nil, Ne, reverse_eq_iff]
    intro h
    exact hbody (h ▸ prefix_refl _)
  have hlast : code.toNat ≤ lastEndCode := hcode
  have htokens : readTokens f image false room.toNat pos [] ns =
      .ok ⟨true, Sign.text f ns signs code, pos + (Sign.stored signs code).length, ns⟩ := by
    have hopening : ¬"    ".toList <+: [].reverse ++ signs.flatMap (Sign.shown f ns) := hbody
    rw [hleft, readTokens_signs hagree hknown hsigns hopening]
    simp only [readTokens, byte?_of_holds hend, if_neg hdone, readToken_end hend, if_pos hlast]
    simp [Sign.text, Sign.stored, Nat.add_assoc]
  rw [readSegment, htokens]
  rfl

/-! ### Setting -/

namespace Script

theorem parts_letter (hc : c ≠ '<') (rest : List Char) :
    parts (c :: rest) = .letter c :: parts rest := by
  rw [parts.eq_def]
  simp only [if_neg hc]

theorem takeWhile_argument (h : '>' ∉ argument) (rest : List Char) :
    (argument ++ '>' :: rest).takeWhile (· != '>') = argument := by
  rw [takeWhile_append_of_pos, takeWhile_cons_of_neg (by decide), append_nil]
  intro c hc
  exact bne_iff_ne.2 fun heq => h (heq ▸ hc)

theorem parts_command (h : '>' ∉ argument) (kind : Char) (rest : List Char) :
    parts ('<' :: kind :: (argument ++ '>' :: rest)) = .command kind argument :: parts rest := by
  have hdrop : (argument ++ '>' :: rest).drop (argument.length + 1) = rest := by
    simp [drop_append, drop_eq_nil_of_le]
  rw [parts.eq_def]
  simp only [if_pos, takeWhile_argument h, hdrop]
  rw [if_pos (by simp)]

end Script

theorem parts_bracketed (hs : s.toList = kind :: argument) (h : '>' ∉ argument) (rest : List Char) :
    parts (bracketed s ++ rest) = .command kind argument :: parts rest := by
  rw [← parts_command h, bracketed, toList_append, toList_append, hs]
  simp

theorem hexByte_digits (b : UInt8) : hexByte (digits b.toNat).toList = .ok b := by
  simp only [hexByte, bind_ok_iff, demand_ok_iff]
  exact ⟨b.toNat, read?_upperHex 2 b.toNat, byteOf_toNat b⟩

theorem notMem_digits (hc : ∀ d < 16, d.digitChar.toUpper ≠ c) (b : UInt8) :
    c ∉ (digits b.toNat).toList :=
  notMem_upperHex hc 2 b.toNat

theorem parts_digits (hs : s.toList = [kind]) (b : UInt8) (rest : List Char) :
    parts (bracketed (s ++ digits b.toNat) ++ rest) =
      .command kind (digits b.toNat).toList :: parts rest :=
  parts_bracketed (by rw [toList_append, hs]; rfl) (notMem_digits (by decide) b) rest

/-! #### Characters -/

theorem eq_toString (h : s.toList = [c]) : c.toString = s := by
  rw [← toList_inj, h]
  exact String.toList_singleton c

namespace Typeface.Sets

variable {n : Int}

theorem code?_letter (hsets : t.Sets f) {b : Int} (hs : f.letters.find? b = some s) :
    ∃ c, s.toList = [c] ∧ c ≠ '<' ∧ t.lettering.code? c = some (.letter b) := by
  have hmem := mem_of_find? hs
  obtain ⟨c, hc, hopen⟩ := hsets.single _ (mem_append_left _ hmem)
  refine ⟨c, hc, hopen, ?_⟩
  have hkanji : t.lettering.kanji.find? s = none := by
    rw [hsets.kanji, Option.eq_none_iff_forall_ne_some]
    intro n hn
    obtain ⟨e, he, heq⟩ := exists_of_find?_swap hn
    exact hsets.disjoint _ hmem e he heq.symm
  rw [code?, eq_toString hc, hkanji, hsets.letters, find?_swap hsets.letters_apart hs]
  rfl

theorem code?_kanji (hsets : t.Sets f) (hs : f.kanji.find? n = some s) :
    ∃ c, s.toList = [c] ∧ c ≠ '<' ∧ t.lettering.code? c = some (.kanji n) := by
  obtain ⟨c, hc, hopen⟩ := hsets.single _ (mem_append_right _ (mem_of_find? hs))
  refine ⟨c, hc, hopen, ?_⟩
  rw [code?, eq_toString hc, hsets.kanji, find?_swap hsets.kanji_apart hs]

theorem readHex?_portrait (hsets : t.Sets f) (hname : f.portraits.find? n = some name) :
    ∃ s, t.portraits.find? name = some s ∧ Text.readHex? s = some n := by
  obtain ⟨list, hparse, hswapped, hapart⟩ := hsets.portraits
  obtain ⟨pairs, hpairs, hfont⟩ := map_ok_iff.1 hparse
  obtain ⟨pairs', hpairs', htypeface⟩ := map_ok_iff.1 hswapped
  rw [← hfont] at hname
  -- The name stands in a line of the list, so the typeface has it, from that line or another one.
  obtain ⟨line, hline, hpair⟩ := exists_of_mem_mapM hpairs (mem_of_find?_ofList hname)
  simp only [bind_ok_iff, pure_ok_iff, Prod.mk.injEq] at hpair
  obtain ⟨_, hcode, _, htext, rfl, rfl⟩ := hpair
  obtain ⟨⟨_, key⟩, hmem, hpair'⟩ := exists_mem_of_mapM hpairs' hline
  simp only [bind_ok_iff, pure_ok_iff, Prod.mk.injEq] at hpair'
  obtain ⟨_, htext', _, -, rfl, rfl⟩ := hpair'
  obtain rfl := Except.ok.inj (htext.symm.trans htext')
  obtain ⟨s, hfind, hmem'⟩ := exists_find?_ofList hmem
  -- Wherever it has the name from, the code there is the same.
  obtain ⟨line', hline', hpair''⟩ := exists_of_mem_mapM hpairs' hmem'
  simp only [bind_ok_iff, pure_ok_iff, Prod.mk.injEq] at hpair''
  obtain ⟨_, htext'', _, hkey, rfl, rfl⟩ := hpair''
  refine ⟨_, htypeface ▸ hfind, ?_⟩
  have hcode' := (hapart line hline line' hline' (htext.trans htext''.symm)).symm.trans hcode
  rw [codeOf, demand_ok_iff] at hcode'
  rw [← Except.ok.inj hkey, Text.readHex?, toList_ofList, hcode']

end Typeface.Sets

/-! #### Insertions -/

theorem hexByte_hexDigits (hx : x < 16) (hy : y < 16) (hb : b.toNat = 16 * x + y) :
    hexByte ([x, y].map (hexDigit false)) = .ok b := by
  have hds : ∀ d ∈ [x, y], d < 16 := by simp [hx, hy]
  have hvalue : (ofDigits 16 [x, y] : Int) = b.toNat := by
    rw [hb]
    simp [ofDigits, Nat.mul_comm]
  simp only [hexByte, bind_ok_iff, demand_ok_iff]
  refine ⟨b.toNat, ?_, byteOf_toNat b⟩
  rw [read?_hexDigits false (by simp) hds, hvalue]

theorem insertion_name (hagree : Agree f ns t) {low high : UInt8}
    (haddress : 0x1000 ≤ Sign.address low high)
    (hname : ns.known.find? (Sign.address low high) = some name) :
    insertion t name.toList = .ok [insertCode, low, high] := by
  have hlow := low.toNat_lt
  have hhigh := high.toNat_lt
  generalize ha : Sign.address low high = a at haddress hname
  have haddress' : a = low.toNat + 0x100 * high.toNat := ha.symm
  have hdigits : addressOf t name.toList =
      [a / 0x1000, a / 0x100 % 16, a / 16 % 16, a % 16].map (hexDigit false) := by
    rw [addressOf, String.ofList_toList, (hagree.names _ _ hname).1]
    have hpos : ¬((a : Int) < 0) := by omega
    have hmark : "0x".toList = ['0', 'x'] := rfl
    -- The mark is dropped, and the first digit is no zero.
    have hfirst : ∀ d < 16, d ≠ 0 → (hexDigit false d == '0' ||
        hexDigit false d == 'x') = false := by decide
    simp only [markedHex, if_neg hpos, toList_append, hmark,
      toList_ofList, Int.natAbs_natCast, digitsOf_four haddress (by omega)]
    simp [hfirst (a / 0x1000) (by omega) (by omega)]
  simp only [insertion, bind_ok_iff, pure_ok_iff, hdigits]
  refine ⟨low, ?_, high, ?_, rfl⟩
  · exact hexByte_hexDigits (Nat.mod_lt _ (by omega)) (Nat.mod_lt _ (by omega)) (by omega)
  · exact hexByte_hexDigits (by omega) (Nat.mod_lt _ (by omega)) (by omega)

/-! #### Portraits -/

theorem portrait_name (hsets : t.Sets f) {number face : UInt8}
    (hsides : sides ∈ [0x00, 0x01, 0x10, 0x11, 0xFF])
    (hname : f.portraits.find? number.toNat = some name) :
    ∃ s, sidesOf? sides.toNat = some s ∧
      '>' ∉ (s ++ "," ++ name ++ "," ++ digits face.toNat).toList ∧
      portrait t (s ++ "," ++ name ++ "," ++ digits face.toNat).toList =
        .ok [portraitCode, sides, number, face] := by
  obtain ⟨s, hs, hsides, hcomma, hclose⟩ := exists_sidesOf hsides
  obtain ⟨hcomma', hclose'⟩ := hsets.portraits_plain _ (mem_of_find? hname)
  obtain ⟨key, hkey, hnumber⟩ := hsets.readHex?_portrait hname
  have hmark : ",".toList = [','] := rfl
  have hchars : (s ++ "," ++ name ++ "," ++ digits face.toNat).toList =
      s.toList ++ ',' :: (name.toList ++ ',' :: (digits face.toNat).toList) := by
    simp [toList_append, hmark]
  have hface : ',' ∉ (digits face.toNat).toList := notMem_digits (by decide) face
  have hface' : '>' ∉ (digits face.toNat).toList := notMem_digits (by decide) face
  have hfields : Text.splitOn ',' (s ++ "," ++ name ++ "," ++ digits face.toNat).toList =
      [s.toList, name.toList, (digits face.toNat).toList] := by
    rw [hchars, Text.splitOn_append hcomma, Text.splitOn_append hcomma',
      Text.splitOn_of_notMem hface]
  refine ⟨s, hs, ?_, ?_⟩
  · simp [hclose, hclose', hface']
  · simp only [portrait, bind_ok_iff, demand_ok_iff, pure_ok_iff, hfields]
    exact ⟨name.toList, rfl, key, by rw [String.ofList_toList, hkey], number.toNat, hnumber,
      (digits face.toNat).toList, rfl, face.toNat, read?_upperHex 2 face.toNat, sides,
      hsides, number, byteOf_toNat number, face, byteOf_toNat face, rfl⟩

namespace Sign

theorem exists_part_of_sets (hsets : t.Sets f) (hknown : g.Known f ns)
    (hg : ∀ low high, g ≠ insertion low high) :
    ∃ part, (∀ rest, parts (g.shown f ns ++ rest) = part :: parts rest) ∧
      effect t part = .ok (.bytes g.bytes) := by
  cases g with
  | letter b =>
    obtain ⟨s, hs⟩ := hknown
    obtain ⟨c, hc, hopen, hcode⟩ := hsets.code?_letter hs
    refine ⟨.letter c, fun rest => ?_, ?_⟩
    · rw [shown, hs, Option.getD_some, hc]
      exact parts_letter hopen rest
    · have hbytes : ofInts [(b.toNat : Int)] = .ok [b] :=
        mapM_ok_iff.2 (.cons (byteOf_toNat b) .nil)
      rw [effect, hcode]
      simp only [Code.numbers, hbytes]
      rfl
  | unmapped b =>
    refine ⟨.command '$' (digits b.toNat).toList, parts_digits rfl b, ?_⟩
    simp only [effect, command?, hexByte_digits]
    rfl
  | control b =>
    -- The kind of the command is the first digit of its code.
    have hdigits : ∃ kind digit, (digits b.toNat).toList = [kind, digit] ∧ digit ≠ '>' ∧
        (kind = 'C' ∨ kind = 'D') := by
      obtain rfl | rfl | rfl := hknown
      · exact ⟨'C', 'D', by decide +kernel, by decide, by decide⟩
      · exact ⟨'C', 'F', by decide +kernel, by decide, by decide⟩
      · exact ⟨'D', '1', by decide +kernel, by decide, by decide⟩
    obtain ⟨kind, digit, hchars, hclose, hkind⟩ := hdigits
    have hbyte := hexByte_digits b
    rw [hchars] at hbyte
    refine ⟨.command kind [digit], parts_bracketed hchars (by simpa using Ne.symm hclose), ?_⟩
    obtain rfl | rfl := hkind
    · simp only [effect, command?, hbyte]
      rfl
    · simp only [effect, command?, hbyte]
      rfl
  | speed n =>
    refine ⟨.command 'S' (digits n.toNat).toList, parts_digits rfl n, ?_⟩
    simp only [effect, command?, hexByte_digits]
    rfl
  | insertion low high => exact absurd rfl (hg low high)
  | portrait sides number face =>
    obtain ⟨hsides, name, hname⟩ := hknown
    obtain ⟨s, hs, hclose, hset⟩ := portrait_name hsets hsides hname
    refine ⟨.command '@' (s ++ "," ++ name ++ "," ++ digits face.toNat).toList, fun rest => ?_, ?_⟩
    · rw [shown, hs, hname]
      exact parts_bracketed (by simp [toList_append]) hclose rest
    · simp only [effect, command?, hset]
      rfl
  | kanji n =>
    obtain ⟨s, hs⟩ := hknown
    obtain ⟨c, hc, hopen, hcode⟩ := hsets.code?_kanji hs
    refine ⟨.letter c, fun rest => ?_, ?_⟩
    · rw [shown, hs, Option.getD_some, hc]
      exact parts_letter hopen rest
    · have hbytes : ofInts [kanjiMark, (n.toNat : Int)] = .ok [kanjiCode, n] :=
        mapM_ok_iff.2 (.cons rfl (.cons (byteOf_toNat n) .nil))
      rw [effect, hcode]
      simp only [Code.numbers, hbytes]
      rfl

/-- **Setting one sign.**  What is shown of a sign is a part of the text, and it is set as the
sign. -/
theorem exists_part (hagree : Agree f ns t) (hknown : g.Known f ns) :
    ∃ part, (∀ rest, parts (g.shown f ns ++ rest) = part :: parts rest) ∧
      effect t part = .ok (.bytes g.bytes) := by
  cases g with
  | insertion low high =>
    obtain ⟨haddress, name, hname⟩ := hknown
    refine ⟨.command '&' name.toList, fun rest => ?_, ?_⟩
    · rw [shown, hname]
      exact parts_bracketed (by rw [toList_append]; rfl) (hagree.names _ _ hname).2 rest
    · simp only [effect, command?, insertion_name hagree haddress hname]
      rfl
  | letter _ | unmapped _ | control _ | speed _ | portrait _ _ _ | kanji _ =>
    exact exists_part_of_sets hagree.sets hknown fun _ _ h => nomatch h

end Sign

theorem encode_signs {more : List UInt8} {stop : Int} (hagree : Agree f ns t)
    (hknown : ∀ g ∈ signs, g.Known f ns) (hrest : Script.encode t rest = .ok (more, stop)) :
    Script.encode t (signs.flatMap (Sign.shown f ns) ++ rest) =
      .ok (signs.flatMap Sign.bytes ++ more, stop) := by
  induction signs with
  | nil => exact hrest
  | cons g signs ih =>
    obtain ⟨hg, hsigns⟩ := forall_mem_cons.1 hknown
    obtain ⟨part, hpart, heffect⟩ := g.exists_part hagree hg
    have htail := ih hsigns
    rw [Script.encode] at htail ⊢
    rw [flatMap_cons, append_assoc, hpart, encodeParts, heffect, flatMap_cons, append_assoc]
    simp only [bind_ok_iff, pure_ok_iff, Except.ok.injEq, exists_eq_left']
    exact ⟨_, htail, rfl⟩

theorem encode_end (t : Typeface) (code : UInt8) :
    Script.encode t (bracketed ("*" ++ digits code.toNat)) = .ok ([], (code.toNat : Int)) := by
  have hparts : parts (bracketed ("*" ++ digits code.toNat) ++ []) =
      .command '*' (digits code.toNat).toList :: parts [] := parts_digits rfl code []
  rw [append_nil] at hparts
  have hcode : read? 16 (digits code.toNat).toList = some (code.toNat : Int) :=
    read?_upperHex 2 code.toNat
  rw [Script.encode, hparts, encodeParts, effect, command?, hcode]
  rfl

theorem encode_text (hagree : Agree f ns t) (hknown : ∀ g ∈ signs, g.Known f ns) (code : UInt8) :
    Script.encode t (Sign.text f ns signs code) =
      .ok (signs.flatMap Sign.bytes, (code.toNat : Int)) := by
  unfold Sign.text withEnd
  split
  case isTrue h =>
    -- Without an end mark the end code is zero, as it was.
    have hnone : Script.encode t [] = .ok ([], 0) := by
      rw [Script.encode, parts.eq_def]
      rfl
    have hsigns := encode_signs hagree hknown hnone
    rwa [append_nil, append_nil, ← Int.natCast_zero, ← h.1] at hsigns
  case isFalse =>
    have hsigns := encode_signs hagree hknown (encode_end t code)
    rwa [append_nil] at hsigns

theorem text_ne_nil (f : Font) (ns : Names) (signs : List Sign) (code : UInt8) :
    Sign.text f ns signs code ≠ [] := by
  unfold Sign.text withEnd
  split
  case isTrue h => exact h.2
  case isFalse => simp [bracketed]

/-! ### Building -/

theorem Script.encode_unknown (h : ∀ argument, command? t kind argument = none) (rest : List Char)
    (r : List UInt8 × Int) : encode t ('<' :: kind :: rest) ≠ .ok r := by
  rw [encode, parts.eq_def]
  simp only [if_pos]
  split
  · simp only [encodeParts, effect, h]
    exact fun h => nomatch h
  · exact fun h => nomatch h

theorem ofText_of_encode {s : List Char} (h : encode t s = .ok r) :
    Sheet.Content.ofText s = .text true s := by
  -- Neither `<F` nor `<N` starts a command.
  have hF : ∀ argument, command? t 'F' argument = none := fun _ => rfl
  have hN : ∀ argument, command? t 'N' argument = none := fun _ => rfl
  have hfinal : s ≠ "<FINAL>".toList := by
    rintro rfl
    exact encode_unknown hF _ _ h
  have hopen : "<NOTERM:".toList.isPrefixOf s ≠ true := by
    rw [Ne, isPrefixOf_iff_prefix]
    rintro ⟨rest, rfl⟩
    exact encode_unknown hN _ _ h
  rw [Sheet.Content.ofText, if_neg hfinal, if_neg hopen]

theorem contentOf_of_encode {s : List Char} (h : encode t s = .ok r)
    (hshared : ¬"@".toList <+: s) (hne : s ≠ []) (c : Sheet.Columns) (row : List String)
    (pointer : String) :
    Sheet.contentOf c row pointer (String.ofList s) = .ok (.text true s) := by
  have hchars : (String.ofList s).toList = s := toList_ofList
  have hstart : (String.ofList s).startsWith "@" = false := by
    rwa [← Bool.not_eq_true, String.startsWith_string_iff, hchars]
  have hempty : (String.ofList s).isEmpty = false := by
    rw [← Bool.not_eq_true, String.isEmpty_iff, ← toList_inj, hchars]
    exact hne
  rw [Sheet.contentOf, hstart, hempty, hchars, ofText_of_encode h]
  rfl

theorem on_addEntry_of_encode {s : List Char} {bytes : List UInt8}
    (h : encode t s = .ok (bytes, (code.toNat : Int))) (hne : s ≠ []) (l : Layout)
    (pointer : String) (w : Workspace) :
    (addEntry t l ⟨pointer, .text true s⟩).on w =
      (.ok (l.add pointer (bytes ++ [endCode, code])), w) := by
  have hending : ending true s code.toNat = .ok [endCode, code] := by
    rw [ending, if_pos ⟨rfl, hne⟩, byteOf_toNat]
    rfl
  simp only [addEntry, h, hending]
  rfl

/-- **Dialog text comes back.**  A stored text of known signs is read whole; the row that it is
written to says this text, and building the row adds the bytes that were read. -/
theorem addEntry_pass {c : Course} {p : Pointer} {s : Scan} (hagree : Agree c.font s.names t)
    (hknown : ∀ g ∈ signs, g.Known c.font s.names) (hcode : code ≤ 4)
    (hheld : Holds c.image s.pos (Sign.stored signs code))
    (hfinal : c.finals.contains (s.pos : Int) = false) (hroom : signs.length + 1 ≤ c.roomOf p)
    (hblank : ¬"    ".toList <+: Sign.text c.font s.names signs code)
    (hshared : ¬"@".toList <+: Sign.text c.font s.names signs code) :
    s.pass c p = .ok { s with
        texts := s.texts.insert p (Sign.text c.font s.names signs code)
        pos := s.pos + (Sign.stored signs code).length } ∧
      ∀ columns row pointer, ∃ content,
        Sheet.contentOf columns row pointer
          (String.ofList (Sign.text c.font s.names signs code)) = .ok content ∧
        ∀ l w, (addEntry t l ⟨pointer, content⟩).on w =
          (.ok (l.add pointer (Sign.stored signs code)), w) := by
  have hencode := encode_text hagree hknown code
  have hne := text_ne_nil c.font s.names signs code
  constructor
  · rw [Scan.pass, hfinal, readSegment_signs hagree hknown hcode hheld hroom hblank]
    rfl
  · intro columns row pointer
    exact ⟨_, contentOf_of_encode hencode hshared hne columns row pointer,
      fun l w => on_addEntry_of_encode hencode hne l pointer w⟩

/-! #### A greeting -/

def greetingFont : Font where
  letters := ⟨[(0x00, " "), (0x01, "A")]⟩
  kanji := ⟨[(0x05, "火")]⟩
  portraits := ⟨[(0x0A, "Karin")]⟩

def greetingNames : Names := { known := ⟨[(0xC123, "NAME")]⟩ }

def greetingTypeface : Typeface where
  lettering := ⟨⟨[(" ", 0x00), ("A", 0x01)]⟩, ⟨[("火", 0x05)]⟩⟩
  pointers := ⟨[("NAME", "0xc123")]⟩
  portraits := ⟨[("Karin", "0A")]⟩

def greeting : List Sign :=
  [.portrait 0x01 0x0A 0x02, .speed 3, .letter 0x01, .insertion 0x23 0xC1, .kanji 0x05,
    .unmapped 0x90, .control 0xCF, .letter 0x00]

def greetingCourse : Course where
  font := greetingFont
  image := ⟨(0xFF :: Sign.stored greeting 2).toArray⟩
  finals := [0x20]
  rooms := ⟨[(0x4000, 9)]⟩
  last := 0x20

def greetingScan : Scan where
  places := [(.slot 0x4000, 1)]
  pos := 1
  names := greetingNames

theorem agree_greeting : Agree greetingFont greetingNames greetingTypeface where
  letters := by decide +kernel
  kanji := by decide +kernel
  letters_apart := by decide +kernel
  kanji_apart := by decide +kernel
  disjoint := by decide +kernel
  single := by
    simp only [greetingFont, cons_append, nil_append, forall_mem_cons]
    exact ⟨⟨' ', rfl, by decide⟩, ⟨'A', rfl, by decide⟩, ⟨'火', rfl, by decide⟩, by simp⟩
  codes := by decide
  portraits := ⟨"0A=Karin\n".toList, by decide +kernel, by decide +kernel, by decide +kernel⟩
  portraits_plain := by decide +kernel
  names := by
    intro a name hname
    have hmem : (a, name) = (0xC123, "NAME") := mem_singleton.1 (mem_of_find? hname)
    obtain ⟨rfl, rfl⟩ := Prod.mk.inj hmem
    decide +kernel

theorem known_greeting : ∀ g ∈ greeting, g.Known greetingFont greetingNames := by
  simp only [greeting, forall_mem_cons, Sign.Known]
  exact ⟨⟨by decide, _, rfl⟩, by decide, ⟨_, rfl⟩, ⟨by decide, _, rfl⟩, ⟨_, rfl⟩,
    ⟨rfl, by decide⟩, by decide, ⟨_, rfl⟩, by simp⟩

theorem text_greeting : Sign.text greetingFont greetingNames greeting 2 =
    "<@LR,Karin,02><S03>A<&NAME>火<$90><CF> <*02>".toList := by decide +kernel

theorem addEntry_pass_greeting :
    Holds greetingCourse.image 1 [0xD2, 0x01, 0x0A, 0x02, 0xCE, 0x03, 0x01, 0xD0, 0x23, 0xC1, 0xD3,
        0x05, 0x90, 0xCF, 0x00, 0xCC, 0x02] ∧
      greetingScan.pass greetingCourse (.slot 0x4000) = .ok { greetingScan with
        texts := greetingScan.texts.insert (.slot 0x4000)
          (Sign.text greetingFont greetingNames greeting 2)
        pos := 1 + (Sign.stored greeting 2).length } ∧
      ∀ columns row pointer, ∃ content,
        Sheet.contentOf columns row pointer
          (String.ofList (Sign.text greetingFont greetingNames greeting 2)) = .ok content ∧
        ∀ l w, (addEntry greetingTypeface l ⟨pointer, content⟩).on w =
          (.ok (l.add pointer (Sign.stored greeting 2)), w) := by
  have hheld : Holds greetingCourse.image 1 (Sign.stored greeting 2) := List.prefix_refl _
  have hroom : (greeting.length : Int) + 1 ≤ greetingCourse.roomOf (.slot 0x4000) := by decide
  refine ⟨hheld, addEntry_pass (s := greetingScan) agree_greeting known_greeting (by decide) hheld
    rfl hroom ?_ ?_⟩
  · exact text_greeting ▸ by decide
  · exact text_greeting ▸ by decide

end Cartridge.Dialog
