import Cartridge.Proofs.Dialog.RoundTrip

/-!
# Telling stored texts apart

Two stored texts that are read as one and the same text may differ in commands that show nothing: a
change to the speed zero, and the insertion of the text at address zero.  With a font and names that
keep their texts apart they differ in nothing else.

Main result: `text_eq_iff`.
-/

open List

namespace Cartridge.Dialog

open Table Sign
open Tileset (Holds holds_append)
open String (toList_append toList_inj)

variable {bs : List UInt8} {s : String} {text : List Char}

/-- The bytes `bs` stand somewhere and are read there as one complete text; the names grow from `ns`
to `ns'`. -/
def Reads (f : Font) (ns : Names) (bs : List UInt8) (text : List Char) (ns' : Names) : Prop :=
  ∃ image pos room, Holds image pos bs ∧
    readSegment f image false room pos ns = .ok ⟨true, text, pos + bs.length, ns'⟩

/-! ### Fonts and names that keep texts apart -/

namespace Font

/-- No text of a letter or a kanji looks like a command or starts another one, and portraits have
names of their own that do not end a command. -/
structure Apart (f : Font) : Prop where
  opening : ∀ kanji code s, f.glyph? kanji code = some s → ∃ c r, s.toList = c :: r ∧ c ≠ '<'
  glyphs : ∀ kanji code s kanji' code' s', f.glyph? kanji code = some s →
    f.glyph? kanji' code' = some s' → s.toList <+: s'.toList → kanji = kanji' ∧ code = code'
  portraits : ∀ n n' name, f.portraits.find? n = some name → f.portraits.find? n' = some name →
    n = n'
  closing : ∀ n name, f.portraits.find? n = some name → '>' ∉ name.toList

end Font

namespace Names

/-- Addresses have names of their own that do not end a command. -/
structure Apart (ns : Names) : Prop where
  names : ∀ a a' name, ns.known.find? a = some name → ns.known.find? a' = some name → a = a'
  closing : ∀ a name, ns.known.find? a = some name → '>' ∉ name.toList

/-- All names are kept. -/
def Le (ns ns' : Names) : Prop :=
  ∀ a name, ns.known.find? a = some name → ns'.known.find? a = some name

theorem Le.refl (ns : Names) : ns.Le ns := fun _ _ h => h

theorem Le.trans {ns ns' ns'' : Names} (h : ns.Le ns') (h' : ns'.Le ns'') : ns.Le ns'' :=
  fun a name hname => h' a name (h a name hname)

theorem le_name (ns : Names) (a : Nat) : ns.Le (ns.name a).2 := by
  intro b name hb
  unfold Names.name
  split
  case h_1 => exact hb
  case h_2 hnone =>
    refine (find?_insert_of_ne _ ?_ _).trans hb
    rintro rfl
    rw [hnone] at hb
    cases hb

end Names

variable {f : Font} {ns ns' : Names} {image : ByteArray} {final : Bool} {left pos : Nat}
  {done rest rest' : List Char} {seg : Segment} {g g' : Sign} {signs : List Sign} {code : UInt8}

namespace Sign

/-- The signs that show something. -/
def visible (signs : List Sign) : List Sign := signs.filter fun g => !g.isSilent

def Named (ns : Names) : Sign → Prop
  | insertion low high => ∃ name, ns.known.find? (address low high) = some name
  | _ => True

end Sign

/-! ### Readings that meet their end mark -/

theorem readTokens_names (h : readTokens f image final left pos done ns = .ok seg) :
    ns.Le seg.names := by
  fun_induction readTokens f image final left pos done ns with
  | case6 left pos done ns b hb hblank a next htoken name ns' hname ih =>
    have hle := Names.le_name ns a
    rw [hname] at hle
    exact hle.trans (ih h)
  | case2 => cases h
  | case4 | case5 | case9 | case11 => exact ‹_ → _› h
  | case1 | case3 | case7 | case8 | case10 =>
    cases h
    exact .refl _

theorem not_ended_of_blank
    (h : readTokens f image false left pos [' ', ' ', ' ', ' '] ns = .ok seg) :
    seg.ended = false := by
  induction left generalizing pos with
  | zero =>
    cases h
    rfl
  | succ left ih =>
    simp only [readTokens] at h
    split at h
    · cases h
    · exact ih h

/-- **One step of a reading that meets its end mark** passes a sign and shows it, unless it is
silent. -/
theorem Sign.readTokens_step_legible (hg : g.Legible f) (hheld : Holds image pos g.bytes)
    (hrun : readTokens f image false left pos done ns = .ok seg) (hended : seg.ended = true) :
    ∃ left' ns', (g.isSilent = false → g.Named seg.names) ∧
      readTokens f image false left' (pos + g.bytes.length)
        ((if g.isSilent then [] else g.shown f seg.names).reverse ++ done) ns' = .ok seg := by
  cases left with
  | zero =>
    cases hrun
    cases hended
  | succ left =>
  have hblank : done ≠ [' ', ' ', ' ', ' '] := by
    rintro rfl
    rw [not_ended_of_blank hrun] at hended
    cases hended
  rw [readTokens_step hg hheld hblank] at hrun
  -- A name that is shown is kept to the end of the reading.
  have hkept := readTokens_names hrun
  cases g with
  | insertion low high =>
    cases hsilent : (insertion low high).isSilent with
    | true =>
      rw [hsilent] at hrun
      exact ⟨left, _, fun h => Bool.noConfusion h, hrun⟩
    | false =>
      simp only [namesAfter, hsilent, if_neg Bool.false_ne_true] at hrun hkept
      have hname := hkept _ _ (ns.find?_name (address low high))
      refine ⟨left, (ns.name (address low high)).2, fun _ => ⟨_, hname⟩, ?_⟩
      rw [shown, hname]
      rw [shown, Names.find?_name] at hrun
      exact hrun
  | letter | unmapped | control | speed | portrait | kanji =>
    exact ⟨left, _, fun _ => trivial, hrun⟩

theorem readTokens_legible (hlegible : ∀ g ∈ signs, g.Legible f)
    (hheld : Holds image pos (signs.flatMap bytes))
    (hrun : readTokens f image false left pos done ns = .ok seg) (hended : seg.ended = true) :
    (∀ g ∈ visible signs, g.Named seg.names) ∧
      ∃ left' ns', readTokens f image false left' (pos + (signs.flatMap bytes).length)
        (((visible signs).flatMap (shown f seg.names)).reverse ++ done) ns' = .ok seg := by
  induction signs generalizing pos done left ns with
  | nil => exact ⟨by simp [visible], left, ns, by simpa [visible] using hrun⟩
  | cons g signs ih =>
    obtain ⟨hg, hsigns⟩ := forall_mem_cons.1 hlegible
    rw [flatMap_cons, holds_append] at hheld
    obtain ⟨left₁, ns₁, hnamed, hnext⟩ := g.readTokens_step_legible hg hheld.1 hrun hended
    obtain ⟨hall, left', ns', hrest⟩ := ih hsigns hheld.2 hnext
    cases hsilent : g.isSilent with rw [hsilent] at hrest
    | true =>
      have hvisible : visible (g :: signs) = visible signs := by
        simp [visible, hsilent]
      refine ⟨hvisible ▸ hall, left', ns', ?_⟩
      simpa [hvisible, Nat.add_assoc] using hrest
    | false =>
      have hvisible : visible (g :: signs) = g :: visible signs := by
        simp [visible, hsilent]
      rw [hvisible]
      refine ⟨forall_mem_cons.2 ⟨hnamed hsilent, hall⟩, left', ns', ?_⟩
      simpa [Nat.add_assoc] using hrest

theorem readTokens_of_readSegment {room : Int} {next : Nat}
    (h : readSegment f image false room pos ns = .ok ⟨true, text, next, ns'⟩) :
    readTokens f image false room.toNat pos [] ns = .ok ⟨true, text, next, ns'⟩ := by
  simp only [readSegment, bind_ok_iff] at h
  obtain ⟨seg, hrun, h⟩ := h
  split at h
  · cases h
    exact hrun
  · rename_i hended
    rw [if_neg Bool.false_ne_true, pure_ok_iff] at h
    exact absurd (congrArg Segment.ended h) hended

theorem Reads.text_eq (h : Reads f ns (stored signs code) text ns')
    (hlegible : ∀ g ∈ signs, g.Legible f) :
    (∀ g ∈ visible signs, g.Named ns') ∧ text = Sign.text f ns' (visible signs) code := by
  obtain ⟨image, pos, room, hheld, hread⟩ := h
  have hrun := readTokens_of_readSegment hread
  obtain ⟨hsigns, hend⟩ := holds_append.1 hheld
  obtain ⟨hnamed, left, ns₁, hlast⟩ := readTokens_legible hlegible hsigns hrun rfl
  refine ⟨hnamed, ?_⟩
  cases left with
  | zero => cases hlast
  | succ left =>
  have hblank : ((visible signs).flatMap (shown f ns')).reverse ++ [] ≠
      [' ', ' ', ' ', ' '] := by
    intro hblank
    rw [hblank] at hlast
    exact Bool.noConfusion (not_ended_of_blank hlast)
  simp only [readTokens, byte?_of_holds hend, if_neg hblank, readToken_end hend, Except.ok.injEq,
    Segment.mk.injEq] at hlast
  rw [← hlast.2.1, append_nil, reverse_reverse]
  rfl

/-! ### Texts that are equal -/

theorem bracketed_eq (s : String) : bracketed s = '<' :: (s.toList ++ ['>']) := by
  simp [bracketed, toList_append]

theorem bracketed_append_inj {s' : String} (hs : '>' ∉ s.toList) (hs' : '>' ∉ s'.toList)
    (h : bracketed s ++ rest = bracketed s' ++ rest') : s = s' ∧ rest = rest' := by
  simp only [bracketed_eq, cons_append, append_assoc, nil_append, List.cons.injEq, true_and] at h
  have hlist : s.toList = s'.toList := by
    rw [← Script.takeWhile_argument hs rest, h, Script.takeWhile_argument hs']
  rw [hlist] at h
  exact ⟨toList_inj.1 hlist, (List.cons.inj (append_cancel_left h)).2⟩

theorem digits_inj {b b' : UInt8} (h : digits b.toNat = digits b'.toNat) : b = b' := by
  have hbyte := hexByte_digits b
  rw [h, hexByte_digits b'] at hbyte
  exact (Except.ok.inj hbyte).symm

theorem length_digits (b : UInt8) : (digits b.toNat).toList.length = 2 := by
  have hall : ∀ n < 256, (digits n).toList.length = 2 := by decide +kernel
  exact hall b.toNat b.toNat_lt

theorem notMem_star (code : UInt8) : '>' ∉ ("*" ++ digits code.toNat).toList := by
  simpa [toList_append] using notMem_digits (c := '>') (by decide) code

/-- What may stand at the end of a text. -/
def IsEnd (s : List Char) : Prop := s = [] ∨ ∃ code : UInt8, s = bracketed ("*" ++ digits code.toNat)

namespace Sign

variable {kind : Char}

def glyph (kanji : Bool) (b : UInt8) : Sign := if kanji then .kanji b else .letter b

/-- What stands between the brackets of a command. -/
def body (f : Font) (ns : Names) : Sign → String
  | letter _ | kanji _ => ""
  | unmapped b => "$" ++ digits b.toNat
  | control b => digits b.toNat
  | speed n => "S" ++ digits n.toNat
  | insertion low high => "&" ++ (ns.known.find? (address low high)).getD ""
  | portrait sides number face =>
    "@" ++ (sidesOf? sides.toNat).getD "" ++ "," ++ (f.portraits.find? number.toNat).getD "" ++
      "," ++ digits face.toNat

/-- The kind of a command: what its body starts with. -/
def kind? : Sign → Option Char
  | letter _ | kanji _ => none
  | unmapped _ => some '$'
  | control b => some (if b = 0xD1 then 'D' else 'C')
  | speed _ => some 'S'
  | insertion _ _ => some '&'
  | portrait _ _ _ => some '@'

theorem shown_cases (hfont : f.Apart) (hnames : ns.Apart) (hg : g.Legible f) (hnamed : g.Named ns) :
    (∃ kanji b s, g = glyph kanji b ∧ f.glyph? kanji b.toNat = some s ∧ g.shown f ns = s.toList) ∨
    ((∃ kind, g.kind? = some kind) ∧ g.shown f ns = bracketed (g.body f ns) ∧
      '>' ∉ (g.body f ns).toList) := by
  cases g with
  | letter b =>
    obtain ⟨s, hs⟩ := hg
    refine .inl ⟨false, b, s, rfl, hs, ?_⟩
    rw [shown, (glyph?_letter.1 hs).2, Option.getD_some]
  | kanji n =>
    obtain ⟨s, hs⟩ := hg
    refine .inl ⟨true, n, s, rfl, hs, ?_⟩
    have hs : f.kanji.find? n.toNat = some s := hs
    rw [shown, hs, Option.getD_some]
  | unmapped b =>
    have hb := notMem_digits (c := '>') (by decide) b
    exact .inr ⟨⟨_, rfl⟩, rfl, by simpa [body] using hb⟩
  | control b => exact .inr ⟨⟨_, rfl⟩, rfl, notMem_digits (by decide) b⟩
  | speed n =>
    have hn := notMem_digits (c := '>') (by decide) n
    exact .inr ⟨⟨_, rfl⟩, rfl, by simpa [body] using hn⟩
  | insertion low high =>
    obtain ⟨name, hname⟩ := hnamed
    have hclosing := hnames.closing _ _ hname
    exact .inr ⟨⟨_, rfl⟩, rfl, by simpa [body, hname] using hclosing⟩
  | portrait sides number face =>
    obtain ⟨hsides, name, hname⟩ := hg
    obtain ⟨s, hs, -, -, hclosing⟩ := exists_sidesOf hsides
    have hclosing' := hfont.closing _ _ hname
    have hface := notMem_digits (c := '>') (by decide) face
    refine .inr ⟨⟨_, rfl⟩, rfl, ?_⟩
    simp [body, toList_append, hs, hname, hclosing, hclosing', hface]

theorem head?_body (hg : g.Legible f) (hkind : g.kind? = some kind) :
    (g.body f ns).toList.head? = some kind := by
  rw [← hkind]
  cases g with
  | letter | kanji => cases hkind
  | unmapped | speed | insertion | portrait => simp [body, kind?, toList_append]
  | control b =>
    obtain rfl | rfl | rfl := hg
    · exact congrArg (fun s : String => s.toList.head?) digits_control.1
    · exact congrArg (fun s : String => s.toList.head?) digits_control.2.1
    · exact congrArg (fun s : String => s.toList.head?) digits_control.2.2

theorem portrait_inj (hfont : f.Apart) {sides sides' number number' face face' : UInt8}
    (hg : (portrait sides number face).Legible f) (hg' : (portrait sides' number' face').Legible f)
    (h : (portrait sides number face).body f ns = (portrait sides' number' face').body f ns) :
    portrait sides number face = portrait sides' number' face' := by
  obtain ⟨hsides, name, hname⟩ := hg
  obtain ⟨hsides', name', hname'⟩ := hg'
  obtain ⟨s, hs, hset, -⟩ := exists_sidesOf hsides
  obtain ⟨s', hs', hset', -⟩ := exists_sidesOf hsides'
  have hlength : ∀ {n : Nat} {s : String}, sidesOf? n = some s → s.toList.length = 2 := by
    intro n s hs
    unfold sidesOf? at hs
    split_ifs at hs <;> cases hs <;> rfl
  have hchars := congrArg String.toList h
  simp only [body, hs, hs', hname, hname', Option.getD_some, toList_append, append_assoc] at hchars
  -- The sides are two characters at the start, and the face is two characters at the end.
  obtain ⟨hsides_eq, hchars⟩ := append_inj (append_cancel_left hchars)
    ((hlength hs).trans (hlength hs').symm)
  obtain ⟨hname_eq, hchars⟩ := append_inj' (append_cancel_left hchars) (by simp [length_digits])
  have hface := digits_inj (toList_inj.1 (append_cancel_left hchars))
  rw [toList_inj] at hname_eq
  rw [hsides_eq, hset'] at hset
  have hnumber := hfont.portraits _ _ _ hname (hname_eq ▸ hname')
  rw [Option.some.inj hset, hface, UInt8.toNat_inj.1 (Int.natCast_inj.1 hnumber)]

section

variable (hfont : f.Apart) (hnames : ns.Apart) (hg : g.Legible f)

include hfont hnames hg

theorem body_inj {kind' : Char} (hg' : g'.Legible f) (hnamed : g.Named ns) (hnamed' : g'.Named ns)
    (hkind : g.kind? = some kind) (hkind' : g'.kind? = some kind') (h : g.body f ns = g'.body f ns)
    : g = g' := by
  have hkinds : g.kind? = g'.kind? := by
    have hhead : (g.body f ns).toList.head? = some kind := head?_body hg hkind
    rw [h, head?_body hg' hkind'] at hhead
    rw [hkind, hkind', hhead]
  -- No other command is of the kind of a control.
  have hcontrol : ∀ b, (control b).kind? ∉ [some '$', some 'S', some '&', some '@'] := by
    intro b
    rw [kind?]
    split <;> decide
  cases g with
  | letter | kanji => cases hkind
  | unmapped b =>
    cases g' with
    | unmapped b' =>
      have hb : b = b' := digits_inj ((String.append_right_inj _).1 h)
      rw [hb]
    | control b' => exact absurd (hkinds ▸ by simp [kind?]) (hcontrol b')
    | _ => cases hkinds
  | control b =>
    cases g' with
    | control b' =>
      have hb : b = b' := digits_inj h
      rw [hb]
    | letter | kanji => cases hkind'
    | _ => exact absurd (hkinds ▸ by simp [kind?]) (hcontrol b)
  | speed n =>
    cases g' with
    | speed n' =>
      have hn : n = n' := digits_inj ((String.append_right_inj _).1 h)
      rw [hn]
    | control b' => exact absurd (hkinds ▸ by simp [kind?]) (hcontrol b')
    | _ => cases hkinds
  | insertion low high =>
    cases g' with
    | insertion low' high' =>
      obtain ⟨name, hname⟩ := hnamed
      obtain ⟨name', hname'⟩ := hnamed'
      simp only [body, hname, hname', Option.getD_some, String.append_right_inj] at h
      have haddress := Int.natCast_inj.1 (hnames.names _ _ _ hname (h ▸ hname'))
      rw [address, address] at haddress
      have hlow := low.toNat_lt
      have hlow' := low'.toNat_lt
      rw [UInt8.toNat_inj.1 (show low.toNat = low'.toNat by omega),
        UInt8.toNat_inj.1 (show high.toNat = high'.toNat by omega)]
    | control b' => exact absurd (hkinds ▸ by simp [kind?]) (hcontrol b')
    | _ => cases hkinds
  | portrait sides number face =>
    cases g' with
    | portrait sides' number' face' => exact portrait_inj hfont hg hg' h
    | control b' => exact absurd (hkinds ▸ by simp [kind?]) (hcontrol b')
    | _ => cases hkinds

/-- **What is shown begins with one sign only.** -/
theorem shown_append_inj (hg' : g'.Legible f) (hnamed : g.Named ns) (hnamed' : g'.Named ns)
    (h : g.shown f ns ++ rest = g'.shown f ns ++ rest') : g = g' ∧ rest = rest' := by
  -- A text of a letter or a kanji does not start like a command.
  have hmixed : ∀ {kanji code s t r r'}, f.glyph? kanji code = some s →
      s.toList ++ r ≠ bracketed t ++ r' := by
    intro kanji code s t r r' hs heq
    obtain ⟨c, cs, hcs, hc⟩ := hfont.opening _ _ _ hs
    rw [hcs, bracketed_eq] at heq
    exact hc (List.cons.inj heq).1
  obtain ⟨k, b, s, rfl, hs, hshown⟩ | ⟨⟨kind, hkind⟩, hshown, hclosing⟩ :=
    shown_cases hfont hnames hg hnamed
  · obtain ⟨k', b', s', rfl, hs', hshown'⟩ | ⟨-, hshown', -⟩ :=
      shown_cases hfont hnames hg' hnamed'
    · rw [hshown, hshown'] at h
      have heq : k = k' ∧ (b.toNat : Int) = b'.toNat := by
        obtain hpre | hpre := prefix_or_prefix_of_prefix (prefix_append s.toList rest)
          (h ▸ prefix_append s'.toList rest')
        · exact hfont.glyphs _ _ _ _ _ _ hs hs' hpre
        · obtain ⟨hk, hb⟩ := hfont.glyphs _ _ _ _ _ _ hs' hs hpre
          exact ⟨hk.symm, hb.symm⟩
      obtain ⟨rfl, hb⟩ := heq
      obtain rfl := UInt8.toNat_inj.1 (Int.natCast_inj.1 hb)
      obtain rfl := Option.some.inj (hs.symm.trans hs')
      exact ⟨rfl, append_cancel_left h⟩
    · rw [hshown, hshown'] at h
      exact absurd h (hmixed hs)
  · obtain ⟨k', b', s', rfl, hs', hshown'⟩ | ⟨⟨kind', hkind'⟩, hshown', hclosing'⟩ :=
      shown_cases hfont hnames hg' hnamed'
    · rw [hshown, hshown'] at h
      exact absurd h.symm (hmixed hs')
    · rw [hshown, hshown'] at h
      obtain ⟨hbody, hrest⟩ := bracketed_append_inj hclosing hclosing' h
      exact ⟨body_inj hfont hnames hg hg' hnamed hnamed' hkind hkind' hbody, hrest⟩

/-- **No sign is shown like the end of a text.** -/
theorem shown_append_ne {s : List Char} (hnamed : g.Named ns) (hs : IsEnd s) :
    g.shown f ns ++ rest ≠ s := by
  intro h
  obtain ⟨k, b, glyph, rfl, hglyph, hshown⟩ | ⟨⟨kind, hkind⟩, hshown, hclosing⟩ :=
    shown_cases hfont hnames hg hnamed
  · obtain ⟨c, cs, hcs, hc⟩ := hfont.opening _ _ _ hglyph
    rw [hshown, hcs] at h
    obtain rfl | ⟨code, rfl⟩ := hs
    · cases h
    · rw [bracketed_eq] at h
      exact hc (List.cons.inj h).1
  · rw [hshown] at h
    obtain rfl | ⟨code, rfl⟩ := hs
    · rw [bracketed_eq] at h
      cases h
    · rw [← append_nil (bracketed ("*" ++ _))] at h
      obtain ⟨hbody, -⟩ := bracketed_append_inj hclosing (notMem_star code) h
      have hhead : (g.body f ns).toList.head? = some kind := head?_body hg hkind
      rw [hbody, toList_append] at hhead
      obtain rfl := Option.some.inj hhead
      cases g with
      | control b =>
        rw [kind?] at hkind
        split at hkind <;> cases hkind
      | _ => cases hkind

end

theorem shown_of_le (hnamed : g.Named ns) (hle : ns.Le ns') : g.shown f ns = g.shown f ns' := by
  cases g with
  | insertion low high =>
    obtain ⟨name, hname⟩ := hnamed
    rw [shown, shown, hname, hle _ _ hname]
  | _ => rfl

theorem Named.of_le (hnamed : g.Named ns) (hle : ns.Le ns') : g.Named ns' := by
  cases g with
  | insertion low high =>
    obtain ⟨name, hname⟩ := hnamed
    exact ⟨name, hle _ _ hname⟩
  | _ => trivial

end Sign

theorem flatMap_shown_inj {signs' : List Sign} {s s' : List Char} (hfont : f.Apart)
    (hnames : ns.Apart) (hsigns : ∀ g ∈ signs, g.Legible f ∧ g.Named ns)
    (hsigns' : ∀ g ∈ signs', g.Legible f ∧ g.Named ns) (hs : IsEnd s) (hs' : IsEnd s')
    (h : signs.flatMap (shown f ns) ++ s = signs'.flatMap (shown f ns) ++ s') :
    signs = signs' ∧ s = s' := by
  induction signs generalizing signs' with
  | nil =>
    cases signs' with
    | nil => exact ⟨rfl, h⟩
    | cons g' signs' =>
      obtain ⟨hg', hnamed'⟩ := hsigns' g' mem_cons_self
      rw [flatMap_cons, append_assoc] at h
      exact absurd h.symm (shown_append_ne hfont hnames hg' hnamed' hs)
  | cons g signs ih =>
    obtain ⟨hg, hnamed⟩ := hsigns g mem_cons_self
    cases signs' with
    | nil =>
      rw [flatMap_cons, append_assoc] at h
      exact absurd h (shown_append_ne hfont hnames hg hnamed hs')
    | cons g' signs' =>
      obtain ⟨hg', hnamed'⟩ := hsigns' g' mem_cons_self
      simp only [flatMap_cons, append_assoc] at h
      obtain ⟨rfl, hrest⟩ := shown_append_inj hfont hnames hg hg' hnamed hnamed' h
      obtain ⟨rfl, hend⟩ := ih (forall_mem_cons.1 hsigns).2 (forall_mem_cons.1 hsigns').2 hrest
      exact ⟨rfl, hend⟩

def endOf (body : List Char) (code : UInt8) : List Char :=
  if code = 0 ∧ body ≠ [] then [] else bracketed ("*" ++ digits code.toNat)

theorem withEnd_eq (body : List Char) (code : UInt8) :
    withEnd body code.toNat = body ++ endOf body code := by
  have hcode : code.toNat = 0 ↔ code = 0 := by
    rw [← UInt8.toNat_inj]
    rfl
  unfold withEnd endOf
  simp only [hcode]
  split <;> simp

theorem isEnd_endOf (body : List Char) (code : UInt8) : IsEnd (endOf body code) := by
  unfold endOf
  split
  · exact .inl rfl
  · exact .inr ⟨code, rfl⟩

theorem endOf_inj {body : List Char} {code' : UInt8} (h : endOf body code = endOf body code') :
    code = code' := by
  unfold endOf at h
  split_ifs at h with h₁ h₂ h₂
  · rw [h₁.1, h₂.1]
  · rw [bracketed_eq] at h
    cases h
  · rw [bracketed_eq] at h
    cases h
  · rw [← append_nil (bracketed _), ← append_nil (bracketed ("*" ++ digits code'.toNat))] at h
    exact digits_inj ((String.append_right_inj _).1
      (bracketed_append_inj (notMem_star _) (notMem_star _) h).1)

variable {ns₁ ns₁' ns₂ ns₂' : Names} {signs₁ signs₂ : List Sign} {code₁ code₂ : UInt8}
  {text₁ text₂ : List Char}

/-- **Texts tell what is stored, but for silent commands.**  Of two complete texts, read one after
the other, whose commands make sense, the texts are equal exactly if the same signs show something
and the end codes are the same. -/
theorem text_eq_iff (hfont : f.Apart) (hnames : ns₂'.Apart) (hle : ns₁'.Le ns₂')
    (hlegible₁ : ∀ g ∈ signs₁, g.Legible f) (hlegible₂ : ∀ g ∈ signs₂, g.Legible f)
    (h₁ : Reads f ns₁ (Sign.stored signs₁ code₁) text₁ ns₁')
    (h₂ : Reads f ns₂ (Sign.stored signs₂ code₂) text₂ ns₂') :
    text₁ = text₂ ↔ Sign.visible signs₁ = Sign.visible signs₂ ∧ code₁ = code₂ := by
  obtain ⟨hnamed₁, rfl⟩ := h₁.text_eq hlegible₁
  obtain ⟨hnamed₂, rfl⟩ := h₂.text_eq hlegible₂
  -- Names are kept, so the first text would be shown in the same way after the second.
  have hbody : (Sign.visible signs₁).flatMap (Sign.shown f ns₁') =
      (Sign.visible signs₁).flatMap (Sign.shown f ns₂') :=
    List.flatMap_congr fun g hg => Sign.shown_of_le (hnamed₁ g hg) hle
  have hvisible : ∀ {signs : List Sign}, (∀ g ∈ signs, g.Legible f) →
      ∀ g ∈ Sign.visible signs, g.Legible f := fun h g hg => h g (List.mem_filter.1 hg).1
  rw [Sign.text, Sign.text, hbody, withEnd_eq, withEnd_eq]
  constructor
  · intro h
    obtain ⟨hsigns, hend⟩ := flatMap_shown_inj hfont hnames
      (fun g hg => ⟨hvisible hlegible₁ g hg, (hnamed₁ g hg).of_le hle⟩)
      (fun g hg => ⟨hvisible hlegible₂ g hg, hnamed₂ g hg⟩) (isEnd_endOf ..) (isEnd_endOf ..) h
    rw [hsigns] at hend
    exact ⟨hsigns, endOf_inj hend⟩
  · rintro ⟨hsigns, rfl⟩
    rw [hsigns]

/-! #### Two texts with silent commands -/

/-- A reading from the start of an image that holds nothing else. -/
theorem reads_of_readSegment (room : Int)
    (h : readSegment f ⟨bs.toArray⟩ false room 0 ns = .ok ⟨true, text, bs.length, ns'⟩) :
    Reads f ns bs text ns' :=
  ⟨⟨bs.toArray⟩, 0, room, prefix_refl bs, by rw [h, Nat.zero_add]⟩

theorem glyph?_greetingFont {kanji : Bool} {code : Int}
    (h : greetingFont.glyph? kanji code = some s) :
    (kanji, code, s) ∈ [(false, 0, " "), (false, 1, "A"), (true, 5, "火")] := by
  unfold Font.glyph? at h
  split_ifs at h with hkanji
  · have hmem := mem_of_find? h
    simp_all [greetingFont]
  · have hmem := mem_of_find? h
    simp_all [greetingFont]

theorem apart_greetingFont : greetingFont.Apart := by
  have hportrait : ∀ {n name}, greetingFont.portraits.find? n = some name →
      (n, name) = (0x0A, "Karin") := fun h => mem_singleton.1 (mem_of_find? h)
  refine ⟨?_, ?_, ?_, ?_⟩
  · intro kanji code s h
    have hmem := glyph?_greetingFont h
    simp only [mem_cons, Prod.mk.injEq, not_mem_nil, or_false] at hmem
    obtain ⟨-, -, rfl⟩ | ⟨-, -, rfl⟩ | ⟨-, -, rfl⟩ := hmem
    · exact ⟨' ', [], rfl, by decide⟩
    · exact ⟨'A', [], rfl, by decide⟩
    · exact ⟨'火', [], rfl, by decide⟩
  · intro kanji code s kanji' code' s' h h' hpre
    have hall : ∀ e ∈ [(false, (0 : Int), " "), (false, 1, "A"), (true, 5, "火")],
        ∀ e' ∈ [(false, (0 : Int), " "), (false, 1, "A"), (true, 5, "火")],
          e.2.2.toList <+: e'.2.2.toList → e.1 = e'.1 ∧ e.2.1 = e'.2.1 := by decide
    exact hall _ (glyph?_greetingFont h) _ (glyph?_greetingFont h') hpre
  · intro n n' name h h'
    rw [(Prod.mk.inj (hportrait h)).1, (Prod.mk.inj (hportrait h')).1]
  · intro n name h
    rw [(Prod.mk.inj (hportrait h)).2]
    decide

/-- The names after a text that inserts the text at an address without a name. -/
def grownNames : Names :=
  { known := ⟨[(0xC123, "NAME"), (0xC234, "BUF01")]⟩, added := [("BUF01", 0xC234)] }

theorem apart_grownNames : grownNames.Apart := by
  have hmem : ∀ {a name}, grownNames.known.find? a = some name →
      (a, name) ∈ [((0xC123 : Int), "NAME"), (0xC234, "BUF01")] := fun h => mem_of_find? h
  refine ⟨?_, ?_⟩
  · intro a a' name h h'
    have hall : ∀ e ∈ [((0xC123 : Int), "NAME"), (0xC234, "BUF01")],
        ∀ e' ∈ [((0xC123 : Int), "NAME"), (0xC234, "BUF01")], e.2 = e'.2 → e.1 = e'.1 := by decide
    exact hall _ (hmem h) _ (hmem h') rfl
  · intro a name h
    have hall : ∀ e ∈ [((0xC123 : Int), "NAME"), (0xC234, "BUF01")], '>' ∉ e.2.toList := by decide
    exact hall _ (hmem h)

/-- A text that starts with a silent change of speed. -/
def hurried : List Sign := [.speed 0, .letter 1, .insertion 0x34 0xC2, .kanji 5]

/-- The same text with a silent insertion instead. -/
def padded : List Sign := [.letter 1, .insertion 0 0, .insertion 0x34 0xC2, .kanji 5]

theorem legible_hurried : ∀ g ∈ hurried ++ padded, g.Legible greetingFont := by
  simp only [hurried, padded, cons_append, nil_append, forall_mem_cons, Legible]
  exact ⟨trivial, ⟨_, rfl⟩, trivial, ⟨_, rfl⟩, ⟨_, rfl⟩, trivial, trivial, ⟨_, rfl⟩, by simp⟩

theorem text_eq_iff_hurried :
    Reads greetingFont greetingNames [0xCE, 0, 1, 0xD0, 0x34, 0xC2, 0xD3, 5, 0xCC, 0]
        "A<&BUF01>火".toList grownNames ∧
      Reads greetingFont grownNames [1, 0xD0, 0, 0, 0xD0, 0x34, 0xC2, 0xD3, 5, 0xCC, 0]
        "A<&BUF01>火".toList grownNames ∧
      Sign.visible hurried = Sign.visible padded := by
  have hfirst : Reads greetingFont greetingNames (Sign.stored hurried 0) "A<&BUF01>火".toList
      grownNames := reads_of_readSegment 9 (by decide +kernel)
  have hsecond : Reads greetingFont grownNames (Sign.stored padded 0) "A<&BUF01>火".toList
      grownNames := reads_of_readSegment 9 (by decide +kernel)
  have hlegible := List.forall_mem_append.1 legible_hurried
  exact ⟨hfirst, hsecond, ((text_eq_iff apart_greetingFont apart_grownNames (.refl _) hlegible.1
    hlegible.2 hfirst hsecond).1 rfl).1⟩

/-! #### Texts that do not tell what is stored -/

/-- No two keys of a table have one value. -/
def OneToOne (t : Table Int String) : Prop :=
  ∀ e ∈ t.entries, ∀ e' ∈ t.entries, e.2 = e'.2 → e.1 = e'.1

instance (t : Table Int String) : Decidable (OneToOne t) :=
  inferInstanceAs (Decidable (∀ e ∈ t.entries, ∀ e' ∈ t.entries, e.2 = e'.2 → e.1 = e'.1))

/-- No table of a font or of names has a value twice. -/
def EachOneToOne (f : Font) (ns : Names) : Prop :=
  OneToOne f.letters ∧ OneToOne f.kanji ∧ OneToOne f.portraits ∧ OneToOne ns.known

instance (f : Font) (ns : Names) : Decidable (EachOneToOne f ns) :=
  inferInstanceAs (Decidable (_ ∧ _ ∧ _ ∧ _))

/-- Different bytes that are read as one text, though no table has a value twice. -/
def Confused (f : Font) (ns : Names) (bs bs' : List UInt8) : Prop :=
  EachOneToOne f ns ∧ bs ≠ bs' ∧ ∃ text ns₁ ns₂, Reads f ns bs text ns₁ ∧ Reads f ns bs' text ns₂

/-- The text as which bytes are read that stand alone. -/
def wholeText? (f : Font) (ns : Names) (bs : List UInt8) : Option (List Char) :=
  match readSegment f ⟨bs.toArray⟩ false bs.length 0 ns with
  | .ok seg => if seg.ended = true ∧ seg.next = bs.length then some seg.text else none
  | .error _ => none

theorem exists_reads_of_wholeText? (h : wholeText? f ns bs = some text) :
    ∃ ns', Reads f ns bs text ns' := by
  unfold wholeText? at h
  split at h
  · rename_i seg hread
    split at h
    · rename_i hseg
      obtain ⟨ended, text', next, ns'⟩ := seg
      obtain ⟨rfl, rfl⟩ := hseg
      obtain rfl := Option.some.inj h
      exact ⟨ns', reads_of_readSegment _ hread⟩
    · cases h
  · cases h

theorem confused_of_wholeText? {bs' : List UInt8}
    (h : EachOneToOne f ns ∧ bs ≠ bs' ∧ (wholeText? f ns bs).isSome = true ∧ wholeText? f ns bs = wholeText? f ns bs')
    : Confused f ns bs bs' := by
  obtain ⟨htables, hne, hsome, heq⟩ := h
  obtain ⟨text, htext⟩ := Option.isSome_iff_exists.1 hsome
  obtain ⟨ns₁, h₁⟩ := exists_reads_of_wholeText? htext
  obtain ⟨ns₂, h₂⟩ := exists_reads_of_wholeText? (heq ▸ htext)
  exact ⟨htables, hne, text, ns₁, ns₂, h₁, h₂⟩

/-- Letters that spell others, or a command. -/
def spellingFont : Font where
  letters := ⟨[(0x01, "A"), (0x02, "B"), (0x03, "AB"), (0x04, "<"), (0x05, "C"), (0x06, "D"),
    (0x07, ">"), (0x08, "火")]⟩
  kanji := ⟨[(0x05, "火")]⟩
  portraits := ⟨[(0x00, "K"), (0x01, "K,00>A<@LL,K")]⟩

/-- Names of which one reads like two insertions and one is about to be made up. -/
def spellingNames : Names :=
  { known := ⟨[(0xC001, "X"), (0xC002, "X>A<&X"), (0xC003, "BUF03")]⟩ }

/-- **Tables without repetitions do not make texts tell what is stored.**  Silent commands are lost;
and texts may start one another, be shared by a letter and a kanji or look like commands, a name may
end a command or be made up though it is in use, and a command that makes no sense is lost. -/
theorem not_stored_eq_of_text_eq :
    Confused greetingFont greetingNames [0xCE, 0, 1, 0xCC, 0] [1, 0xCC, 0] ∧
      Confused greetingFont greetingNames [0xD0, 0, 0, 1, 0xCC, 0] [1, 0xCC, 0] ∧
      Confused spellingFont spellingNames [1, 2, 0xCC, 0] [3, 0xCC, 0] ∧
      Confused spellingFont spellingNames [8, 0xCC, 0] [0xD3, 5, 0xCC, 0] ∧
      Confused spellingFont spellingNames [4, 5, 6, 7, 0xCC, 0] [0xCD, 0xCC, 0] ∧
      Confused spellingFont spellingNames [0xD2, 0, 1, 0, 0xCC, 0]
        [0xD2, 0, 0, 0, 1, 0xD2, 0, 0, 0, 0xCC, 0] ∧
      Confused spellingFont spellingNames [0xD0, 0x02, 0xC0, 0xCC, 0]
        [0xD0, 0x01, 0xC0, 1, 0xD0, 0x01, 0xC0, 0xCC, 0] ∧
      Confused spellingFont spellingNames [0xD0, 0x03, 0xC0, 0xCC, 0] [0xD0, 0x04, 0xC0, 0xCC, 0] ∧
      Confused greetingFont greetingNames [0xD3, 9, 1, 0xCC, 0] [1, 0xCC, 0] := by
  refine ⟨?_, ?_, ?_, ?_, ?_, ?_, ?_, ?_, ?_⟩ <;> exact confused_of_wholeText? (by decide +kernel)

end Cartridge.Dialog
