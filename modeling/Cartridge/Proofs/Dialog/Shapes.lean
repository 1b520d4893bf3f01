import Cartridge.Proofs.Dialog.Distinct
import Mathlib.Data.List.Perm.Subperm

/-!
# The shapes of dumped texts

What the texts of a section look like, whatever the image holds.  A text is shown with its end or
without, it is the last one of its section, a piece of another text, or a repeated pointer
(`Shape`).

* `Scan.Sound.run`: every text that a scan reads has one of the shapes.
* `Scan.Sound.length_slots`: a section has at most `0x8000` pointers.
-/

open List

namespace Cartridge.Dialog

open Table Text.Numeral Script
open String (toList_append)

variable {f : Font} {t : Typeface} {ns ns' : Names} {image : ByteArray} {final : Bool}
  {left pos next b code start fuel k n : Nat} {done text s s' rest : List Char} {seg : Segment}
  {g : Sign} {a : Address} {e : Pointer × Int} {stop at_ last room : Int} {texts texts' : Texts}

/-! ### Parts that can be set -/

/-- A part that is set as bytes, or an insertion. -/
def Script.Part.Ready (t : Typeface) (p : Part) : Prop :=
  (∃ bs, effect t p = .ok (.bytes bs)) ∨ ∃ name, p = .command '&' name

/-- A text of such parts, whatever follows it.  It is not taken for a repeated pointer, and it is
written to a sheet and read from it as it is. -/
structure Composed (t : Typeface) (s : List Char) : Prop where
  head : s.head? ≠ some '@'
  plain : '\r' ∉ s
  parts : ∃ ps, (∀ rest, parts (s ++ rest) = ps ++ parts rest) ∧
    ∀ p ∈ ps, Part.Ready t p

namespace Composed

theorem nil (t : Typeface) : Composed t [] :=
  ⟨by simp, not_mem_nil, [], fun _ => rfl, by simp⟩

theorem append (h : Composed t s) (h' : Composed t s') : Composed t (s ++ s') where
  head := by
    cases s with
    | nil => exact h'.head
    | cons c s => exact h.head
  plain := by
    rw [mem_append, not_or]
    exact ⟨h.plain, h'.plain⟩
  parts := by
    obtain ⟨ps, hps, hready⟩ := h.parts
    obtain ⟨ps', hps', hready'⟩ := h'.parts
    refine ⟨ps ++ ps', fun rest => ?_, fun p hp => ?_⟩
    · rw [append_assoc, hps, hps', append_assoc]
    · exact (mem_append.1 hp).elim (hready p) (hready' p)

end Composed

/-- A typeface that is made for a font whose characters and names go through a sheet unchanged. -/
structure Typeface.Suits (t : Typeface) (f : Font) : Prop extends t.Sets f where
  glyphs : ∀ e ∈ f.letters.entries ++ f.kanji.entries, '@' ∉ e.2.toList ∧ '\r' ∉ e.2.toList
  portraits_line : ∀ e ∈ f.portraits.entries, '\r' ∉ e.2.toList

def madeUpName (n : Nat) : String := "BUF" ++ upperHex 2 n

/-- Names that do not end a command and go through a sheet unchanged; those that were added are made
up. -/
structure Names.Plain (ns : Names) : Prop where
  known : ∀ a name, ns.known.find? a = some name → '>' ∉ name.toList ∧ '\r' ∉ name.toList
  added : ∀ e ∈ ns.added, ∃ n, e.1 = madeUpName n

theorem head?_bracketed (s : String) : (bracketed s).head? ≠ some '@' := by
  rw [bracketed_eq, head?_cons]
  decide

theorem notMem_bracketed {s : String} (h : '\r' ∉ s.toList) : '\r' ∉ bracketed s := by
  rw [bracketed_eq]
  simp [h]

theorem notMem_sidesOf {s : String} (h : sidesOf? n = some s) : '\r' ∉ s.toList := by
  unfold sidesOf? at h
  split_ifs at h <;> cases h <;> decide

theorem Typeface.Suits.glyph (h : t.Suits f) {e : Int × String}
    (he : e ∈ f.letters.entries ++ f.kanji.entries) :
    e.2.toList.head? ≠ some '@' ∧ '\r' ∉ e.2.toList := by
  obtain ⟨hmark, hline⟩ := h.glyphs e he
  refine ⟨fun hhead => hmark ?_, hline⟩
  exact mem_of_mem_head? hhead

/-- **One sign** that inserts nothing is a part that can be set. -/
theorem Sign.composed (hsuits : t.Suits f) (hknown : g.Known f ns)
    (hg : ∀ low high, g ≠ insertion low high) : Composed t (g.shown f ns) := by
  obtain ⟨part, hpart, heffect⟩ := exists_part_of_sets hsuits.toSets hknown hg
  have hparts : ∃ ps, (∀ rest, parts (g.shown f ns ++ rest) = ps ++ parts rest) ∧
      ∀ p ∈ ps, Part.Ready t p :=
    ⟨[part], hpart, fun p hp => .inl ⟨_, mem_singleton.1 hp ▸ heffect⟩⟩
  -- What is left to see is how the sign starts and that it holds no carriage return.
  suffices hchars : (g.shown f ns).head? ≠ some '@' ∧ '\r' ∉ g.shown f ns from
    ⟨hchars.1, hchars.2, hparts⟩
  have hdigits : ∀ b : UInt8, '\r' ∉ (digits b.toNat).toList := notMem_digits (by decide)
  have hbracketed : ∀ s : String, '\r' ∉ s.toList →
      (bracketed s).head? ≠ some '@' ∧ '\r' ∉ bracketed s :=
    fun s hs => ⟨head?_bracketed s, notMem_bracketed hs⟩
  cases g with
  | letter b =>
    obtain ⟨s, hs⟩ := hknown
    rw [shown, hs]
    exact hsuits.glyph (mem_append_left _ (mem_of_find? hs))
  | kanji n =>
    obtain ⟨s, hs⟩ := hknown
    rw [shown, hs]
    exact hsuits.glyph (mem_append_right _ (mem_of_find? hs))
  | unmapped b => exact hbracketed _ (by simp [toList_append, hdigits b])
  | control b => exact hbracketed _ (hdigits b)
  | speed n => exact hbracketed _ (by simp [toList_append, hdigits n])
  | insertion low high => exact absurd rfl (hg low high)
  | portrait sides number face =>
    obtain ⟨hsides, name, hname⟩ := hknown
    obtain ⟨s, hs, -⟩ := exists_sidesOf hsides
    have hline := hsuits.portraits_line _ (mem_of_find? hname)
    rw [shown, hs, hname]
    refine hbracketed _ ?_
    simp [toList_append, notMem_sidesOf hs, hline, hdigits face]

/-- **One insertion** is a part, and its name is the one that was given. -/
theorem composed_insertion {name : String} (hclose : '>' ∉ name.toList)
    (hline : '\r' ∉ name.toList) : Composed t (bracketed ("&" ++ name)) where
  head := head?_bracketed _
  plain := notMem_bracketed (by simp [toList_append, hline])
  parts := by
    have hname : ("&" ++ name).toList = '&' :: name.toList := by simp [toList_append]
    refine ⟨[.command '&' name.toList], parts_bracketed hname hclose, fun p hp => ?_⟩
    exact .inr ⟨name.toList, mem_singleton.1 hp⟩

theorem composed_unmapped (b : UInt8) : Composed t (bracketed ("$" ++ digits b.toNat)) where
  head := head?_bracketed _
  plain := by
    have hdigits : '\r' ∉ (digits b.toNat).toList := notMem_digits (by decide) b
    exact notMem_bracketed (by simp [toList_append, hdigits])
  parts := by
    refine ⟨[.command '$' (digits b.toNat).toList], parts_digits rfl b, fun p hp => .inl ⟨[b], ?_⟩⟩
    rw [mem_singleton.1 hp]
    simp only [effect, command?, hexByte_digits]
    rfl

/-! ### Readings -/

theorem exists_byte (h : byte? image pos = some left) :
    (∃ b : UInt8, left = b.toNat) ∧ pos < image.size := by
  unfold byte? at h
  split at h
  · exact ⟨⟨_, (Option.some.inj h).symm⟩, ‹_›⟩
  · cases h

def Shows (f : Font) (ns : Names) (text : List Char) : Prop :=
  text = [] ∨ ∃ g : Sign, g.Known f ns ∧ (∀ low high, g ≠ .insertion low high) ∧ text = g.shown f ns

/-- There are three bytes of the image at most from one position to the other. -/
def Ahead (image : ByteArray) (pos next : Nat) : Prop :=
  pos ≤ next ∧ next ≤ pos + 3 ∧ (pos ≤ image.size → next ≤ image.size)

theorem ahead_self : Ahead image pos pos := ⟨le_rfl, by omega, id⟩

theorem ahead_of_byte? (h : byte? image (pos + k) = some n) (hk : k < 3) :
    Ahead image pos (pos + (k + 1)) := by
  have hlt := (exists_byte h).2
  exact ⟨by omega, by omega, fun _ => hlt⟩

/-- What a token whose arguments start at a position says of the image. -/
def Token.Fits (f : Font) (ns : Names) (image : ByteArray) (pos : Nat) : Token → Prop
  | .shown text next => Shows f ns text ∧ Ahead image pos next
  | .insertion _ next | .broken next => Ahead image pos next
  | .stop code next => byte? image pos = some code ∧ next = pos + 1
  | .unknown => True

theorem fits_speedToken : (speedToken image pos).Fits f ns image pos := by
  unfold speedToken
  split
  · exact ahead_self
  rename_i n hn
  refine And.intro ?_ (ahead_of_byte? (k := 0) hn (by decide))
  obtain ⟨⟨n, rfl⟩, -⟩ := exists_byte hn
  by_cases hzero : n.toNat = 0
  · exact .inl (if_pos hzero)
  · exact .inr ⟨.speed n, fun h => hzero (h ▸ rfl), nofun, if_neg hzero⟩

theorem fits_insertionToken : (insertionToken image pos).Fits f ns image pos := by
  unfold insertionToken
  split
  · rename_i hhigh
    have hahead := ahead_of_byte? hhigh (by decide)
    dsimp only
    split
    · exact And.intro (.inl rfl) hahead
    · exact hahead
  · rename_i hlow _
    exact ahead_of_byte? (k := 0) hlow (by decide)
  · exact ahead_self

theorem mem_of_sidesOf? {sides : UInt8} {s : String} (h : sidesOf? sides.toNat = some s) :
    sides ∈ [0x00, 0x01, 0x10, 0x11, 0xFF] := by
  have hbyte : ∀ c : UInt8, sides.toNat = c.toNat → sides = c := fun c => UInt8.toNat_inj.1
  unfold sidesOf? at h
  split_ifs at h with h₁ h₂ h₃ h₄ h₅
  · simp [hbyte 0x00 h₁]
  · simp [hbyte 0x01 h₂]
  · simp [hbyte 0x10 h₃]
  · simp [hbyte 0x11 h₄]
  · simp [hbyte 0xFF h₅]

theorem fits_portraitToken : (portraitToken f image pos).Fits f ns image pos := by
  unfold portraitToken
  split
  · exact ahead_self
  rename_i n hn
  have hfirst : Ahead image pos (pos + 1) := ahead_of_byte? (k := 0) hn (by decide)
  obtain ⟨⟨sides, rfl⟩, -⟩ := exists_byte hn
  split
  · exact hfirst
  · exact hfirst
  rename_i s m hs hm
  have hsecond := ahead_of_byte? hm (by decide)
  obtain ⟨⟨number, rfl⟩, -⟩ := exists_byte hm
  split
  · exact hsecond
  · exact hsecond
  rename_i name face hname hface
  refine And.intro ?_ (ahead_of_byte? hface (by decide))
  obtain ⟨⟨face, rfl⟩, -⟩ := exists_byte hface
  refine .inr ⟨.portrait sides number face, ⟨mem_of_sidesOf? hs, name, hname⟩, nofun, ?_⟩
  rw [Sign.shown, hs, hname]
  rfl

theorem fits_kanjiToken : (kanjiToken f image pos).Fits f ns image pos := by
  unfold kanjiToken
  split
  · exact ahead_self
  rename_i n hn
  have hahead : Ahead image pos (pos + 1) := ahead_of_byte? (k := 0) hn (by decide)
  obtain ⟨⟨n, rfl⟩, -⟩ := exists_byte hn
  split
  · exact hahead
  rename_i s hs
  refine And.intro (.inr ⟨.kanji n, ⟨s, hs⟩, nofun, ?_⟩) hahead
  rw [Sign.shown, hs]
  rfl

theorem fits_readToken (b : UInt8) : (readToken f image b.toNat pos).Fits f ns image pos := by
  have hcontrol : ∀ c : UInt8, (c = 0xCD ∨ c = 0xCF ∨ c = 0xD1) →
      (Token.shown (bracketed (digits c.toNat)) pos).Fits f ns image pos :=
    fun c hc => And.intro (.inr ⟨.control c, hc, nofun, rfl⟩) ahead_self
  unfold readToken
  split
  · unfold stopToken
    split
    · exact ahead_self
    · rename_i hcode
      exact And.intro hcode rfl
  · exact digits_control.1 ▸ hcontrol 0xCD (by decide)
  · exact fits_speedToken
  · exact digits_control.2.1 ▸ hcontrol 0xCF (by decide)
  · exact fits_insertionToken
  · exact digits_control.2.2 ▸ hcontrol 0xD1 (by decide)
  · exact fits_portraitToken
  · exact fits_kanjiToken
  · split
    · rename_i s hs
      refine And.intro (.inr ⟨.letter b, ⟨s, hs⟩, nofun, ?_⟩) ahead_self
      rw [Sign.shown, hs]
      rfl
    · trivial

/-- **One code**: what it shows is nothing, or it is a sign that inserts nothing. -/
theorem Token.fits (ns : Names) {token : Token} (hb : byte? image pos = some b)
    (h : readToken f image b (pos + 1) = token) : token.Fits f ns image (pos + 1) := by
  obtain ⟨⟨b, rfl⟩, -⟩ := exists_byte hb
  exact h ▸ fits_readToken b

theorem composed_of_shows (hsuits : t.Suits f) (h : Shows f ns text) : Composed t text := by
  obtain rfl | ⟨g, hknown, hg, rfl⟩ := h
  · exact .nil t
  · exact g.composed hsuits hknown hg

theorem forall_mem_madeUpName {p : Char → Prop} (hletters : p 'B' ∧ p 'U' ∧ p 'F')
    (hdigits : ∀ d < 16, p d.digitChar.toUpper) (n : Nat) : ∀ c ∈ (madeUpName n).toList, p c := by
  intro c hc
  rw [madeUpName, toList_append, mem_append] at hc
  obtain hc | hc := hc
  · have hc : c = 'B' ∨ c = 'U' ∨ c = 'F' := by simpa using hc
    obtain rfl | rfl | rfl := hc
    · exact hletters.1
    · exact hletters.2.1
    · exact hletters.2.2
  · exact forall_mem_upperHex hdigits 2 n c hc

theorem Names.Plain.name (h : ns.Plain) (a : Nat) :
    ('>' ∉ (ns.name a).1.toList ∧ '\r' ∉ (ns.name a).1.toList) ∧ (ns.name a).2.Plain := by
  unfold Names.name
  split
  · rename_i name hname
    exact ⟨h.known a name hname, h⟩
  · have hnew : ∀ c ∈ (madeUpName ns.known.size).toList, c ≠ '>' ∧ c ≠ '\r' :=
      forall_mem_madeUpName (by decide) (by decide) _
    have hplain : '>' ∉ (madeUpName ns.known.size).toList ∧
        '\r' ∉ (madeUpName ns.known.size).toList :=
      ⟨fun hmem => (hnew _ hmem).1 rfl, fun hmem => (hnew _ hmem).2 rfl⟩
    refine ⟨hplain, fun b name hname => ?_, fun e he => ?_⟩
    · by_cases hb : b = a
      · subst hb
        rw [find?_insert_self, Option.some.injEq] at hname
        exact hname ▸ hplain
      · rw [find?_insert_of_ne _ hb] at hname
        exact h.known b name hname
    · obtain he | he := mem_append.1 he
      · exact h.added e he
      · exact ⟨ns.known.size, by rw [mem_singleton.1 he]; rfl⟩

def Segment.Composes (t : Typeface) (seg : Segment) : Prop :=
  if seg.ended then ∃ body, ∃ code : UInt8, Composed t body ∧ seg.text = withEnd body code.toNat
  else Composed t seg.text

/-- **All readings.**  A reading goes on with composed text, and its names stay plain. -/
theorem readTokens_composed (hsuits : t.Suits f) (hns : ns.Plain) (hdone : Composed t done.reverse)
    (h : readTokens f image final left pos done ns = .ok seg) :
    seg.Composes t ∧ seg.names.Plain := by
  fun_induction readTokens f image final left pos done ns with
  | case2 => cases h
  | case1 | case3 | case8 | case10 =>
    -- the reading ends without an end mark
    cases h
    exact ⟨hdone, hns⟩
  | case4 left pos ns b hb hfinal ih => exact ih hns hdone h
  | case5 left pos done ns b hb hblank text next htoken ih =>
    refine ih hns ?_ h
    rw [reverse_append, reverse_reverse]
    exact hdone.append (composed_of_shows hsuits (Token.fits ns hb htoken).1)
  | case6 left pos done ns b hb hblank a next htoken name ns' hname ih =>
    obtain ⟨hplain, hns'⟩ := hns.name a
    rw [hname] at hplain hns'
    refine ih hns' ?_ h
    rw [reverse_append, reverse_reverse]
    exact hdone.append (composed_insertion hplain.1 hplain.2)
  | case7 left pos done ns b hb hblank code next htoken =>
    obtain ⟨⟨code, rfl⟩, -⟩ := exists_byte (Token.fits ns hb htoken).1
    cases h
    exact ⟨⟨done.reverse, code, hdone, rfl⟩, hns⟩
  | case9 left pos done ns b hb hblank next htoken hfinal ih => exact ih hns hdone h
  | case11 left pos done ns b hb hblank htoken hfinal ih =>
    obtain ⟨⟨b, rfl⟩, -⟩ := exists_byte hb
    refine ih hns ?_ h
    rw [reverse_append, reverse_reverse]
    exact hdone.append (composed_unmapped b)

/-! ### Texts of a section -/

/-- The shapes of texts. -/
inductive Shape (t : Typeface) : List Char → Prop
  /-- A text with its end. -/
  | ended {body : List Char} (h : Composed t body) (code : UInt8) :
      Shape t (withEnd body code.toNat)
  | endless {body : List Char} (h : Composed t body) : Shape t ("<NOTERM:".toList ++ body ++ ['>'])
  | final : Shape t "<FINAL>".toList
  | piece (rest : List Char) : Shape t ("<OFFSET:".toList ++ rest)
  | repeated (place : Nat) : Shape t ("@" ++ markedHex place).toList

theorem shape_of_readSegment (hsuits : t.Suits f) (hns : ns.Plain)
    (h : readSegment f image final room pos ns = .ok seg) : Shape t seg.text ∧ seg.names.Plain := by
  simp only [readSegment, bind_ok_iff] at h
  obtain ⟨first, hread, h⟩ := h
  have hnil : Composed t ([] : List Char).reverse := .nil t
  obtain ⟨hcomposes, hnames⟩ := readTokens_composed hsuits hns hnil hread
  by_cases hended : first.ended = true
  · rw [if_pos hended, pure_ok_iff] at h
    subst h
    rw [Segment.Composes, if_pos hended] at hcomposes
    obtain ⟨body, code, hbody, htext⟩ := hcomposes
    exact ⟨htext ▸ .ended hbody code, hnames⟩
  · rw [Segment.Composes, if_neg hended] at hcomposes
    rw [if_neg hended] at h
    by_cases hfinal : final = true
    · rw [if_pos hfinal, bind_ok_iff] at h
      obtain ⟨_, -, h⟩ := h
      cases h
      exact ⟨.final, hnames⟩
    · rw [if_neg hfinal] at h
      cases h
      exact ⟨.endless hcomposes, hnames⟩

/-- What holds of texts while they are read: they have their shapes, each pointer has one at most,
and the pointers are among the given ones. -/
structure Scan.Sound (t : Typeface) (slots : List Nat) (s : Scan) : Prop where
  names : s.names.Plain
  shapes : ∀ e ∈ s.texts.entries, Shape t e.2
  nodup : s.texts.keys.Nodup
  pointers : ∀ p, .slot p ∈ s.texts.keys → p ∈ slots
  known : ∀ e ∈ s.places, ∀ p, e.1 = .slot p → p ∈ slots

namespace Scan.Sound

variable {c : Course} {slots : List Nat} {s s' : Scan} {p : Pointer}

section

variable (h : s.Sound t slots)

include h

theorem insert (hp : ∀ q, p = .slot q → q ∈ slots) (htext : Shape t text) :
    ({ s with texts := s.texts.insert p text } : Scan).Sound t slots where
  names := h.names
  shapes e he := by
    obtain rfl | he := mem_insert he
    · exact htext
    · exact h.shapes e he
  nodup := nodup_keys_insert h.nodup p text
  pointers q hq := by
    obtain heq | hq := mem_keys_insert_iff.1 hq
    · exact hp q heq.symm
    · exact h.pointers q hq
  known := h.known

theorem pass (hsuits : t.Suits c.font) (hp : ∀ q, p = .slot q → q ∈ slots)
    (hpass : s.pass c p = .ok s') : s'.Sound t slots := by
  simp only [Scan.pass, bind_ok_iff, pure_ok_iff] at hpass
  obtain ⟨seg, hseg, rfl⟩ := hpass
  obtain ⟨hshape, hnames⟩ := shape_of_readSegment hsuits h.names hseg
  have hinsert := h.insert hp hshape
  exact ⟨hnames, hinsert.shapes, hinsert.nodup, hinsert.pointers, h.known⟩

theorem of_textAt? (hp : s.textAt? at_ = some p) : ∀ q, p = .slot q → q ∈ slots := by
  rw [Scan.textAt?, Option.map_eq_some_iff] at hp
  obtain ⟨e, he, rfl⟩ := hp
  exact h.known e (mem_of_find?_eq_some he)

theorem passes (hsuits : t.Suits c.font) (hp : ∀ q, p = .slot q → q ∈ slots)
    (hpasses : Scan.passes c fuel p s = .ok s') : s'.Sound t slots := by
  induction fuel generalizing p s with
  | zero => cases hpasses
  | succ fuel ih =>
    simp only [Scan.passes, bind_ok_iff] at hpasses
    obtain ⟨s₁, hpass, hrest⟩ := hpasses
    have h₁ := h.pass hsuits hp hpass
    split at hrest
    · rename_i q hq
      exact ih h₁ (h₁.of_textAt? hq) hrest
    · split at hrest
      · cases hrest
        exact h₁
      · -- a text that no pointer leads to gets a number
        have hknown : ∀ e ∈ s₁.places ++ [(Pointer.unused s₁.unused, (s₁.pos : Int))],
            ∀ q, e.1 = .slot q → q ∈ slots := by
          intro e he q hq
          obtain he | he := mem_append.1 he
          · exact h₁.known e he q hq
          · rw [mem_singleton.1 he] at hq
            cases hq
        have hnext : Scan.Sound t slots { s₁ with
            places := s₁.places ++ [(Pointer.unused s₁.unused, (s₁.pos : Int))]
            unused := s₁.unused + 1 } :=
          ⟨h₁.names, h₁.shapes, h₁.nodup, h₁.pointers, hknown⟩
        have hunused : ∀ q, Pointer.unused s₁.unused = .slot q → q ∈ slots := fun _ hq => nomatch hq
        exact ih hnext hunused hrest

theorem run (hsuits : t.Suits c.font) (hrun : s.run c = .ok s') : s'.Sound t slots := by
  unfold Scan.run at hrun
  split at hrun
  · rename_i p hp
    exact h.passes hsuits (h.of_textAt? hp) hrun
  · cases hrun
    exact h

theorem addMissing (he : ∀ q, e.1 = .slot q → q ∈ slots) (hadd : s.addMissing e = .ok s') :
    s'.Sound t slots := by
  simp only [Scan.addMissing, bind_ok_iff, pure_ok_iff, demand_ok_iff] at hadd
  obtain ⟨⟨other, start⟩, -, text, -, rest, -, rfl⟩ := hadd
  refine h.insert he ?_
  simp only [toList_append, append_assoc]
  exact .piece _

end

end Scan.Sound

/-! ### Sections -/

/-- The texts of a section: they have their shapes, and pointers have room in a word. -/
structure SoundTexts (t : Typeface) (texts : Texts) : Prop where
  shapes : ∀ e ∈ texts, Shape t e.2.toList
  few : (texts.filter fun e => !e.1.isUnused).length ≤ 0x8000

theorem SoundTexts.sublist (h : SoundTexts t texts) (hsub : texts'.Sublist texts) :
    SoundTexts t texts' where
  shapes e he := h.shapes e (hsub.subset he)
  few := ((hsub.filter _).length_le).trans h.few

theorem length_add_le (s : Slots) (place : Nat) (target : Int) :
    (s.add place target).targets.length + (s.add place target).repeats.length =
      s.targets.length + s.repeats.length + 1 := by
  unfold Slots.add
  split
  · simp only [length_append, length_singleton]
    omega
  · simp only [length_append, length_singleton]
    omega

theorem length_of_readSlots {slots : Slots} (h : Slots.read image a start stop = .ok slots) :
    slots.targets.length + slots.repeats.length ≤ ((stop - (start + 2) + 1) / 2).toNat + 1 := by
  simp only [Slots.read, bind_ok_iff] at h
  obtain ⟨words, hwords, h⟩ := h
  have hlength : words.length = ((stop - (start + 2) + 1) / 2).toNat := by
    have hall := mapM_ok_iff.1 hwords
    rw [← hall.length_eq, length_range]
  split at h
  · cases h
    exact Nat.zero_le _
  · cases h
    have hfold : ∀ (es : List (Nat × Nat)) (s : Slots), (es.foldl (fun s e =>
        s.add (start + 2 + 2 * e.2) (Address.flat ⟨a.bank, e.1⟩)) s).targets.length +
          (es.foldl (fun s e =>
            s.add (start + 2 + 2 * e.2) (Address.flat ⟨a.bank, e.1⟩)) s).repeats.length =
        s.targets.length + s.repeats.length + es.length := by
      intro es
      induction es with
      | nil => exact fun s => rfl
      | cons e es ih =>
        intro s
        rw [foldl_cons, ih, length_add_le, length_cons]
        omega
    rw [hfold, length_zipIdx]
    simp only [length_singleton, length_nil]
    omega

theorem mem_places_of_missing {c : Course} {s : Scan} (h : e ∈ s.missing c) : e ∈ s.places := by
  rw [Scan.missing, bucketed, mem_map] at h
  obtain ⟨key, hkey, rfl⟩ := h
  rw [mem_mergeSort, mem_filterMap] at hkey
  obtain ⟨e, he, hkey⟩ := hkey
  split at hkey
  · split at hkey
    · cases hkey
    · cases hkey
      exact he
  · cases hkey

/-- A table ends in the bank where it starts, so a word can count its pointers. -/
theorem length_table (ha : 0 ≤ a.offset) (hstart : Bytes.position a.flat = .ok start)
    (hends : readEnds image a start = .ok (stop, last)) :
    ((stop - (start + 2) + 1) / 2).toNat + 1 ≤ 0x8000 := by
  have hflat : (start : Int) = a.flat := by
    unfold Bytes.position at hstart
    split at hstart
    · cases hstart
    · cases hstart
      omega
  simp only [readEnds, bind_ok_iff, pure_ok_iff, Prod.mk.injEq] at hends
  obtain ⟨word, hword, _, -, _, -, rfl, -⟩ := hends
  have hbound : word < 0x10000 := Bytes.lt_of_wordAt hword
  simp only [Address.flat] at hflat ⊢
  omega

theorem Scan.Sound.length_slots {slots : List Nat} {s : Scan} (h : s.Sound t slots) :
    (s.texts.entries.filter fun e => !e.1.isUnused).length ≤ slots.length := by
  have hnodup : ((s.texts.entries.filter fun e => !e.1.isUnused).map Prod.fst).Nodup :=
    h.nodup.sublist (filter_sublist.map Prod.fst)
  have hsubset : (s.texts.entries.filter fun e => !e.1.isUnused).map Prod.fst ⊆
      slots.map Pointer.slot := by
    intro p hp
    obtain ⟨e, he, rfl⟩ := mem_map.1 hp
    obtain ⟨he, hused⟩ := mem_filter.1 he
    have hkey : e.1 ∈ s.texts.keys := mem_map_of_mem he
    cases hpointer : e.1 with
    | unused n => simp [hpointer, Pointer.isUnused] at hused
    | slot q =>
      rw [hpointer] at hkey
      exact mem_map_of_mem (h.pointers q hkey)
  simpa using (List.Nodup.subperm hnodup hsubset).length_le

theorem sound_of_readSection {finals finals' : List Int} (hsuits : t.Suits f) (hns : ns.Plain)
    (ha : 0 ≤ a.offset) (h : readSection f image finals ns a = .ok (texts, finals', ns')) :
    SoundTexts t texts ∧ ns'.Plain := by
  simp only [readSection, bind_ok_iff, pure_ok_iff, Prod.mk.injEq] at h
  obtain ⟨start, hstart, ⟨stop, last⟩, hends, slots, hslots, s₁, hrun, s₂, hmissing, rfl, -,
    rfl⟩ := h
  have hempty : Scan.Sound t (slots.targets.map Prod.fst)
      { places := slots.targets.map fun t => (.slot t.1, t.2), pos := slots.stop, names := ns } :=
    { names := hns
      shapes := fun e he => absurd he not_mem_nil
      nodup := nodup_nil
      pointers := fun p hp => absurd hp not_mem_nil
      known := by
        intro e he p hp
        obtain ⟨target, htarget, rfl⟩ := mem_map.1 he
        cases hp
        exact mem_map_of_mem htarget }
  have h₁ := hempty.run hsuits hrun
  have h₂ : s₂.Sound t (slots.targets.map Prod.fst) := by
    refine foldlM_invariant (Scan.Sound t _) (fun e he s s' hs hadd => ?_) h₁ hmissing
    exact hs.addMissing (h₁.known e (mem_places_of_missing he)) hadd
  refine ⟨⟨?_, ?_⟩, h₂.names⟩
  · intro e he
    obtain he | he := mem_append.1 he
    · obtain ⟨entry, hentry, rfl⟩ := mem_map.1 he
      rw [String.toList_ofList]
      exact h₂.shapes entry hentry
    · obtain ⟨r, -, rfl⟩ := mem_map.1 he
      exact .repeated r.2
  · -- a pointer has a text, or it repeats another one
    have htexts := h₂.length_slots
    have htable := length_of_readSlots hslots
    have hword := length_table ha hstart hends
    rw [length_map] at htexts
    rw [filter_append, length_append, filter_map, length_map]
    have hrepeats := length_filter_le (fun e : Pointer × String => !e.1.isUnused)
      (slots.repeats.map fun r => (Pointer.slot r.1, "@" ++ markedHex r.2))
    rw [length_map] at hrepeats
    change (s₂.texts.entries.filter fun e => !e.1.isUnused).length + _ ≤ _
    omega

/-! ### Surveys -/

theorem offset_nonneg {addresses : List Address} (h : readAddresses image = .ok addresses) :
    ∀ a ∈ addresses, 0 ≤ a.offset := by
  simp only [readAddresses, bind_ok_iff, pure_ok_iff] at h
  obtain ⟨banks, -, bases, -, rfl⟩ := h
  intro a ha
  obtain ⟨e, -, rfl⟩ := mem_map.1 ha
  exact Int.natCast_nonneg _

theorem sound_of_readSurvey {check : Nat → Texts → Except Fault Unit} {survey : Survey}
    (hsuits : t.Suits f) (hns : ns.Plain) (h : Survey.read f image check ns = .ok (survey, ns')) :
    (∀ texts ∈ survey.sections, SoundTexts t texts) ∧ ns'.Plain := by
  simp only [Survey.read, bind_ok_iff, pure_ok_iff, Prod.mk.injEq] at h
  obtain ⟨addresses, haddresses, ⟨sections, finals, names⟩, hsections, rfl, rfl⟩ := h
  have hoffset := offset_nonneg haddresses
  refine foldlM_invariant
    (fun r : List Texts × List Int × Names => (∀ texts ∈ r.1, SoundTexts t texts) ∧ r.2.2.Plain)
    ?_ ⟨by simp, hns⟩ hsections
  rintro a ha ⟨sections, finals, names⟩ r ⟨hsound, hplain⟩ hstep
  simp only [bind_ok_iff, pure_ok_iff] at hstep
  obtain ⟨⟨texts, finals', names'⟩, hsection, _, -, rfl⟩ := hstep
  have ha' := hoffset a (mem_of_mem_filter ha)
  obtain ⟨htexts, hnames⟩ := sound_of_readSection hsuits hplain ha' hsection
  refine ⟨fun texts' htexts' => ?_, hnames⟩
  obtain hmem | hmem := mem_append.1 htexts'
  · exact hsound texts' hmem
  · exact mem_singleton.1 hmem ▸ htexts

end Cartridge.Dialog
