import Cartridge.Proofs.Dialog.Accepted
import Cartridge.Proofs.Dialog.Written

/-!
# Building what was dumped

A dump writes a sheet for each section, and a build stores the texts of a sheet for one version.
The argument has two halves that meet at `SoundTexts`: every text of a dump has one of a few shapes,
whatever the images hold, and of texts of these shapes exactly the accepted ones are built.

Main result: `built_iff`.
-/

open List

namespace Cartridge.Dialog

open Charset Except Job
open Tileset (Holds)
open Workspace (SameBut plainPath)

variable {f : Folders} {w w' : Workspace} {font : Font} {t : Typeface} {text list : List Char}
  {pointers portraits : Table String String} {first second first' second' : Survey}
  {names names' ns : Names} {sheets : List (List Place)}

/-! ### The typeface -/

/-- Lists of characters, portraits and names that tell everything apart: no two codes have one
character or portrait, and none is taken for a command or a repeated pointer. -/
structure Fair (f : Folders) (w : Workspace) (font : Font) : Prop where
  read : (readFont f).on w = (.ok font, w)
  letters_apart : ∀ e ∈ font.letters.entries, ∀ e' ∈ font.letters.entries, e.2 = e'.2 → e.1 = e'.1
  kanji_apart : ∀ e ∈ font.kanji.entries, ∀ e' ∈ font.kanji.entries, e.2 = e'.2 → e.1 = e'.1
  disjoint : ∀ e ∈ font.letters.entries, ∀ e' ∈ font.kanji.entries, e.2 ≠ e'.2
  single : ∀ e ∈ font.letters.entries ++ font.kanji.entries,
    ∃ c, e.2.toList = [c] ∧ c ≠ '<' ∧ c ≠ '@'
  portraits_apart : ∀ list, (readText (portraitsPath f)).on w = (.ok list, w) →
    ∀ l ∈ entryLines list, ∀ l' ∈ entryLines list, textOf l = textOf l' → codeOf l = codeOf l'
  portraits_plain : ∀ e ∈ font.portraits.entries,
    ',' ∉ e.2.toList ∧ '>' ∉ e.2.toList ∧ '\r' ∉ e.2.toList
  names_plain : ∀ text, (readNameList f).on w = (.ok text, w) → '>' ∉ text

def Font.typeface (font : Font) (pointers portraits : Table String String) : Typeface :=
  ⟨⟨font.letters.swap, font.kanji.swap⟩, pointers, portraits⟩

theorem Fair.isDisjoint (h : Fair f w font) :
    (⟨font.letters.swap, font.kanji.swap⟩ : Lettering).isDisjoint = true := by
  rw [Lettering.isDisjoint, all_eq_true]
  intro s hs
  obtain ⟨code, hkanji⟩ := Table.mem_keys_iff.1 hs
  obtain ⟨e', he', rfl⟩ := Table.exists_of_find?_swap hkanji
  rw [Bool.not_eq_true', ← Bool.not_eq_true]
  intro hboth
  obtain ⟨code', hletter⟩ := Option.isSome_iff_exists.1 hboth
  obtain ⟨e, he, heq⟩ := Table.exists_of_find?_swap hletter
  exact h.disjoint e he e' he' heq

theorem exists_parseSwapped {set : Charset} (h : parse codeOf list = .ok set) :
    ∃ portraits, parseSwapped nameOf list = .ok portraits := by
  obtain ⟨entries, hentries, -⟩ := map_ok_iff.1 h
  have hswapped : ∀ l ∈ entryLines list, ∃ e : String × String,
      (do
        let s ← textOf l
        let k ← nameOf l
        return (s, k)) = ok e := by
    intro l hl
    obtain ⟨e, -, he⟩ := exists_mem_of_mapM hentries hl
    simp only [bind_ok_iff] at he
    obtain ⟨code, -, s, hs, -⟩ := he
    refine ⟨(s, String.ofList (keyOf l)), ?_⟩
    simp only [bind_ok_iff, pure_ok_iff]
    exact ⟨s, hs, _, rfl, rfl⟩
  obtain ⟨pairs, hpairs⟩ := exists_mapM_eq_ok hswapped
  exact ⟨_, map_ok_iff.2 ⟨pairs, hpairs, rfl⟩⟩

theorem Fair.suits (h : Fair f w font)
    (hlist : (readText (portraitsPath f)).on w = (.ok list, w))
    (hportraits : parseSwapped nameOf list = .ok portraits)
    (pointers : Table String String) : (font.typeface pointers portraits).Suits font := by
  obtain ⟨-, hletters, hkanji, list', hlist', hparse⟩ := readFont_ok_iff.1 h.read
  obtain rfl := ok.inj (congrArg Prod.fst (hlist.symm.trans hlist'))
  have hline : ∀ e ∈ font.letters.entries ++ font.kanji.entries, '\r' ∉ e.2.toList := by
    intro e he
    obtain he | he := mem_append.1 he
    · exact notMem_of_readLetters hletters e he
    · exact notMem_of_ofTilesetAt hkanji e he
  exact {
    letters := rfl
    kanji := rfl
    letters_apart := h.letters_apart
    kanji_apart := h.kanji_apart
    disjoint := h.disjoint
    single := by
      intro e he
      obtain ⟨c, hc, hcommand, -⟩ := h.single e he
      exact ⟨c, hc, hcommand⟩
    portraits := ⟨list, hparse, hportraits, h.portraits_apart list hlist⟩
    portraits_plain := fun e he => ⟨(h.portraits_plain e he).1, (h.portraits_plain e he).2.1⟩
    glyphs := by
      intro e he
      obtain ⟨c, hc, -, hrepeat⟩ := h.single e he
      refine ⟨?_, hline e he⟩
      rw [hc, mem_singleton]
      exact Ne.symm hrepeat
    portraits_line := fun e he => (h.portraits_plain e he).2.2 }

theorem on_readTypeface (hfont : (readFont f).on w = (.ok font, w))
    (hdisjoint : (⟨font.letters.swap, font.kanji.swap⟩ : Lettering).isDisjoint = true)
    (hlist : (readText (portraitsPath f)).on w = (.ok list, w))
    (hportraits : parseSwapped nameOf list = .ok portraits)
    (htext : (readText (namesPath f)).on w = (.ok text, w))
    (hpointers : parse nameOf text = .ok pointers) :
    (readTypeface (namesPath f) (portraitsPath f)).on w =
      (.ok (font.typeface pointers portraits), w) := by
  obtain ⟨-, hletters, hkanji, -⟩ := readFont_ok_iff.1 hfont
  have hlettering : Lettering.read.on w = (.ok ⟨font.letters.swap, font.kanji.swap⟩, w) := by
    simp only [Lettering.read, on_bind_ok_iff]
    refine ⟨_, w, hletters, _, w, hkanji, (), w, ?_, rfl⟩
    rw [require, if_pos hdisjoint]
    rfl
  simp only [readTypeface, readNames, readNamesOfTexts, on_bind_ok_iff, on_lift, Prod.mk.injEq]
  exact ⟨_, w, hlettering, pointers, w, ⟨text, w, htext, hpointers, rfl⟩, portraits, w,
    ⟨list, w, hlist, hportraits, rfl⟩, rfl⟩

/-! ### Sound sheets -/

theorem notMem_of_readNameList (h : (readNameList f).on w = (.ok text, w')) : '\r' ∉ text := by
  simp only [readNameList, on_bind_ok_iff, on_get, Prod.mk.injEq, ok.injEq] at h
  obtain ⟨_, _, ⟨rfl, rfl⟩, h⟩ := h
  split at h
  · exact notMem_of_readText h
  · cases h
    exact not_mem_nil

theorem plain_of_parseNames (hcommand : '>' ∉ text) (hline : '\r' ∉ text)
    (h : parseNames text = .ok ns) : ns.Plain := by
  refine ⟨fun a name hname => ⟨?_, ?_⟩, ?_⟩
  · exact fun hmem => hcommand (mem_of_parseNames h hname hmem)
  · exact fun hmem => hline (mem_of_parseNames h hname hmem)
  · simp only [parseNames, bind_ok_iff, pure_ok_iff] at h
    obtain ⟨entries, -, rfl⟩ := h
    exact fun e he => nomatch he

theorem Surveyed.sound (hsuits : t.Suits font) (hcommand : '>' ∉ text) (hline : '\r' ∉ text)
    (h : Surveyed w font text first second names) :
    (∀ texts ∈ first.sections, SoundTexts t texts) ∧
      (∀ texts ∈ second.sections, SoundTexts t texts) ∧ names.Plain := by
  obtain ⟨given, between, image, image', hgiven, -, hfirst, -, hsecond⟩ := h
  have hplain := plain_of_parseNames hcommand hline hgiven
  obtain ⟨hsound, hbetween⟩ := sound_of_readSurvey hsuits hplain hfirst
  obtain ⟨hsound', hnames⟩ := sound_of_readSurvey hsuits hbetween hsecond
  exact ⟨hsound, hsound', hnames⟩

theorem Surveyed.unique (h : Surveyed w font text first second names)
    (h' : Surveyed w font text first' second' names') : first = first' ∧ second = second' := by
  obtain ⟨given, between, image, image', hgiven, himage, hfirst, himage', hsecond⟩ := h
  obtain ⟨given', between', _, _, hgiven', himage₁, hfirst', himage₁', hsecond'⟩ := h'
  obtain rfl := ok.inj (hgiven.symm.trans hgiven')
  obtain rfl := ok.inj (himage.symm.trans himage₁)
  obtain rfl := ok.inj (himage'.symm.trans himage₁')
  obtain ⟨rfl, rfl⟩ := Prod.mk.inj (ok.inj (hfirst.symm.trans hfirst'))
  obtain ⟨rfl, -⟩ := Prod.mk.inj (ok.inj (hsecond.symm.trans hsecond'))
  exact ⟨rfl, rfl⟩

theorem texts_alone (v : Version) (texts : Texts) :
    (alone texts).flatMap (Place.texts v) = texts := by
  induction texts with
  | nil => rfl
  | cons e texts ih =>
    rw [alone, map_cons, flatMap_cons, ← alone, ih]
    cases v with
    | kabuto => rfl
    | kuwagata => rfl

theorem sound_of_mergeSections {as bs : List Texts} (has : ∀ texts ∈ as, SoundTexts t texts)
    (hbs : ∀ texts ∈ bs, SoundTexts t texts) (h : mergeSections as bs = .ok sheets) (v : Version) :
    ∀ places ∈ sheets, SoundTexts t (places.flatMap (Place.texts v)) := by
  have halone : ∀ {sections : List Texts}, (∀ texts ∈ sections, SoundTexts t texts) →
      ∀ places ∈ sections.map alone, SoundTexts t (places.flatMap (Place.texts v)) := by
    intro sections hsections places hplaces
    obtain ⟨texts, htexts, rfl⟩ := mem_map.1 hplaces
    rw [texts_alone]
    exact hsections texts htexts
  fun_induction mergeSections as bs generalizing sheets with
  | case1 bs =>
    cases h
    exact halone hbs
  | case2 as hne =>
    cases h
    exact halone has
  | case3 a as b bs ih =>
    simp only [bind_ok_iff, pure_ok_iff] at h
    obtain ⟨places, hplaces, rest, hrest, rfl⟩ := h
    obtain ⟨ha, has⟩ := forall_mem_cons.1 has
    obtain ⟨hb, hbs⟩ := forall_mem_cons.1 hbs
    refine forall_mem_cons.2 ⟨?_, ih has hbs hrest⟩
    cases v with
    | kabuto => exact (merged_of_merge hplaces).texts_kabuto ▸ ha
    | kuwagata => exact hb.sublist (merged_of_merge hplaces).texts_sublist

/-- **What a dump leaves**: lists that give a typeface, and sheets with texts of known shapes. -/
theorem exists_of_dump (hfair : Fair f w font) (hdump : (dump f).on w = (.ok (), w')) :
    ∃ t text first second names sheets,
      (readTypeface (namesPath f) (portraitsPath f)).on w' = (.ok t, w') ∧
      (readNameList f).on w = (.ok text, w) ∧ Surveyed w font text first second names ∧
      mergeSections first.sections second.sections = .ok sheets ∧
      ∀ i places, sheets[i]? = some places →
        SheetHolds f w' i places ∧ ∀ v, SoundTexts t (places.flatMap (Place.texts v)) := by
  obtain ⟨w₁, font', text, first, second, names, sheets, hopen, hfont', htext, hsurveyed, hsheets,
    hwrite⟩ := dump_ok_iff.1 hdump
  obtain ⟨hopened, hnameList⟩ := of_openNames hopen htext
  have hfont := on_readFont_of_sameBut hopened hfair.read
  obtain rfl := ok.inj (congrArg Prod.fst (hfont.symm.trans hfont'))
  obtain ⟨-, -, -, list, hlist, hparse⟩ := readFont_ok_iff.1 hfair.read
  obtain ⟨portraits, hportraits⟩ := exists_parseSwapped hparse
  have hcommand := hfair.names_plain text hnameList
  have hline := notMem_of_readNameList hnameList
  -- the new names are made up, whatever the names are read as later
  obtain ⟨-, -, hplain⟩ := hsurveyed.sound (hfair.suits hlist hportraits ∅) hcommand hline
  obtain ⟨hwritten, hholds, htext'⟩ := of_writeDialog hplain.added htext hwrite
  have hsame := hopened.trans hwritten
  obtain ⟨given, -, -, -, hgiven, -⟩ := id hsurveyed
  obtain ⟨pointers, hpointers⟩ := exists_parse_append hgiven hplain.added
  have hsuits := hfair.suits hlist hportraits pointers
  obtain ⟨hfirst, hsecond, -⟩ := hsurveyed.sound hsuits hcommand hline
  refine ⟨font.typeface pointers portraits, text, first, second, names, sheets, ?_, hnameList,
    hsurveyed.of_sameBut hopened.symm, hsheets, ?_⟩
  · exact on_readTypeface (on_readFont_of_sameBut hsame hfair.read) hfair.isDisjoint
      (on_portraits_of_sameBut hsame hlist) hportraits htext' hpointers
  · intro i places hi
    refine ⟨hholds i places hi, fun v => ?_⟩
    exact sound_of_mergeSections hfirst hsecond hsheets v places (mem_of_getElem? hi)

def twoSections : List UInt8 :=
  [8, 0, 11, 0, 11, 0, 14, 0, 1, 0xCC, 0, 2, 0xCC, 0, 0xFF, 0, 0] ++
    [25, 0, 29, 0, 28, 0, 32, 0, 1, 0xCC, 0, 2, 3, 0xCC, 0, 0xFF, 0, 0]

def twoAddresses : List Address := [⟨1, 0⟩, ⟨1, 17⟩] ++ List.replicate 36 ⟨0, 0⟩

def twoBanks : List UInt8 := [1, 1] ++ List.replicate 36 0

def twoOffsets : List Nat := [0, 17] ++ List.replicate 36 0

def twoFront : List UInt8 := twoSections ++ List.replicate (bankList - twoSections.length) 0

def twoImage : ByteArray := ⟨(twoFront ++ (twoBanks ++ twoOffsets.flatMap Bytes.wordBytes)).toArray⟩

theorem readAddresses_sample : readAddresses twoImage = .ok twoAddresses := by
  have hfront : twoFront.length = bankList := by
    rw [twoFront, length_append, length_replicate]
    rfl
  have hholds : Holds twoImage bankList (twoBanks ++ twoOffsets.flatMap Bytes.wordBytes) := by
    rw [Holds, twoImage, drop_left' hfront]
  rw [Tileset.holds_append] at hholds
  have hbanks := Bytes.bytesAt_of_holds hholds.1
  have hwords := Bytes.wordsAt_of_holds (by decide) hholds.2
  simp only [readAddresses, bind_ok_iff, pure_ok_iff]
  exact ⟨_, hbanks, _, hwords, by decide⟩

def sampleFont : Font where
  letters := ⟨[(1, "A"), (2, "B"), (3, "C"), (0, " ")]⟩
  kanji := ⟨[(0, "火")]⟩
  portraits := ∅

def dialogFiles : Workspace where
  files := ⟨[("baserom_kabuto.gbc", twoImage), ("baserom_kuwagata.gbc", twoImage),
    ("scripts/res/tilesets/MainDialog1.lst", "|01\nA\nB\nC\n".toUTF8),
    ("scripts/res/tilesets/MainDialog2.lst", "".toUTF8),
    ("scripts/res/tilesets/Special.lst", "".toUTF8),
    ("scripts/res/tilesets/Kanji.lst", "火\n".toUTF8), ("res/portraits.tbl", "".toUTF8)]⟩
  folders := ["", "res", "src", "src/kabuto", "src/kuwagata", "txt", "scripts", "scripts/res",
    "scripts/res/tilesets"]

def wholeTexts : Texts :=
  [(.slot 0, "A"), (.slot 2, "B"), (.slot 6, "<FINAL>"), (.slot 4, "@0x2")]

def pieceTexts : Texts :=
  [(.slot 17, "A"), (.slot 21, "BC"), (.slot 23, "<FINAL>"), (.slot 19, "<OFFSET:15:1>C")]

def sampleSurvey : Survey := ⟨twoAddresses, [wholeTexts, pieceTexts]⟩

theorem read_sample {check : Nat → Texts → Except Fault Unit} (hwhole : check 0 wholeTexts = .ok ())
    (hpiece : check 1 pieceTexts = .ok ()) :
    Survey.read sampleFont twoImage check { known := ∅ } = .ok (sampleSurvey, { known := ∅ }) := by
  have hfirst : readSection sampleFont twoImage [] { known := ∅ } ⟨1, 0⟩ =
      .ok (wholeTexts, [14], { known := ∅ }) := by decide +kernel
  have hsecond : readSection sampleFont twoImage [14] { known := ∅ } ⟨1, 17⟩ =
      .ok (pieceTexts, [14, 32], { known := ∅ }) := by decide +kernel
  have hpresent : present twoAddresses = [⟨1, 0⟩, ⟨1, 17⟩] := by decide
  simp only [Survey.read, readAddresses_sample, bind_ok_iff, pure_ok_iff]
  refine ⟨_, rfl, ([wholeTexts, pieceTexts], [14, 32], { known := ∅ }), ?_, rfl⟩
  rw [hpresent]
  simp only [foldlM_cons, foldlM_nil, bind_ok_iff, pure_ok_iff]
  exact ⟨_, ⟨_, hfirst, _, hwhole, rfl⟩, _, ⟨_, hsecond, _, hpiece, rfl⟩, rfl⟩

theorem read_dialogFiles :
    (∀ v : Version, dialogFiles.target v.image = .ok v.image) ∧
      (Lettering.readLetters.on dialogFiles).1 = .ok sampleFont.letters ∧
      ((ofTilesetAt "Kanji" 0).on dialogFiles).1 = .ok sampleFont.kanji ∧
      ((readText (portraitsPath sampleFolders)).on dialogFiles).1 = .ok [] ∧
      dialogFiles.hasPath (namesPath sampleFolders) = false := by
  refine ⟨fun v => ?_, ?_⟩
  · cases v with
    | kabuto | kuwagata => decide +kernel
  · decide +kernel

theorem surveyed_sample :
    Surveyed dialogFiles sampleFont [] sampleSurvey sampleSurvey { known := ∅ } := by
  have hcheck : checkAgainst sampleSurvey 0 wholeTexts = .ok () ∧
      checkAgainst sampleSurvey 1 pieceTexts = .ok () := by decide
  refine ⟨{ known := ∅ }, { known := ∅ }, twoImage, twoImage, rfl, ?_, read_sample rfl rfl, ?_,
    read_sample hcheck.1 hcheck.2⟩
  · exact Workspace.read_ok_iff.2 ⟨_, read_dialogFiles.1 .kabuto, rfl⟩
  · exact Workspace.read_ok_iff.2 ⟨_, read_dialogFiles.1 .kuwagata, rfl⟩

theorem on_portraits_sample :
    (readText (portraitsPath sampleFolders)).on dialogFiles = (.ok [], dialogFiles) :=
  Prod.ext read_dialogFiles.2.2.2.1 (Quiet.readText _ _)

theorem on_readFont_sample :
    (readFont sampleFolders).on dialogFiles = (.ok sampleFont, dialogFiles) := by
  obtain ⟨-, hletters, hkanji, -⟩ := read_dialogFiles
  exact readFont_ok_iff.2 ⟨rfl, Prod.ext hletters (Quiet.readLetters _),
    Prod.ext hkanji (Quiet.ofTilesetAt _ _ _), [], on_portraits_sample, rfl⟩

theorem on_readNameList_sample :
    (readNameList sampleFolders).on dialogFiles = (.ok [], dialogFiles) := by
  simp only [readNameList, on_bind_ok_iff, on_get, Prod.mk.injEq, ok.injEq]
  refine ⟨_, _, ⟨rfl, rfl⟩, ?_⟩
  rw [read_dialogFiles.2.2.2.2]
  rfl

theorem fair_sample : Fair sampleFolders dialogFiles sampleFont where
  read := on_readFont_sample
  letters_apart := by decide
  kanji_apart := by decide
  disjoint := by decide
  single := by
    simp only [sampleFont, cons_append, nil_append, forall_mem_cons]
    exact ⟨⟨'A', rfl, by decide⟩, ⟨'B', rfl, by decide⟩, ⟨'C', rfl, by decide⟩,
      ⟨' ', rfl, by decide⟩, ⟨'火', rfl, by decide⟩, by simp⟩
  portraits_apart := by
    intro list hlist l hl
    obtain rfl := ok.inj (congrArg Prod.fst (hlist.symm.trans on_portraits_sample))
    cases hl
  portraits_plain := fun e he => nomatch he
  names_plain := by
    intro text htext
    obtain rfl := ok.inj (congrArg Prod.fst (htext.symm.trans on_readNameList_sample))
    exact not_mem_nil

def sampleSheets : List (List Place) := [alone wholeTexts, alone pieceTexts]

theorem merge_sampleSurvey :
    mergeSections sampleSurvey.sections sampleSurvey.sections = .ok sampleSheets := by
  decide

def openedFiles : Workspace := ((openNames (namesPath sampleFolders)).on dialogFiles).2

def dumpedFiles : Workspace :=
  ((writeDialog sampleFolders sampleSurvey sampleSurvey [] sampleSheets).on openedFiles).2

theorem run_dialogFiles :
    ((openNames (namesPath sampleFolders)).on dialogFiles).1 = .ok () ∧
      ((readText (namesPath sampleFolders)).on openedFiles).1 = .ok [] ∧
      ((writeDialog sampleFolders sampleSurvey sampleSurvey [] sampleSheets).on openedFiles).1 =
        .ok () ∧
      dumpedFiles.target "out" = .ok "out" ∧
      ((readTypeface (namesPath sampleFolders) (portraitsPath sampleFolders)).on dumpedFiles).1 =
        .ok (sampleFont.typeface ∅ ∅) := by
  decide +kernel

theorem on_dump_sample : (dump sampleFolders).on dialogFiles = (.ok (), dumpedFiles) := by
  obtain ⟨hopen, htext, hwrite, -⟩ := run_dialogFiles
  have hopen := on_eq_of_fst hopen
  have htext : (readText (namesPath sampleFolders)).on openedFiles = (.ok [], openedFiles) :=
    Prod.ext htext (Quiet.readText _ _)
  have hsame := (of_openNames hopen htext).1
  exact dump_ok_iff.2 ⟨openedFiles, sampleFont, [], sampleSurvey, sampleSurvey, { known := ∅ },
    sampleSheets, hopen, on_readFont_of_sameBut hsame on_readFont_sample, htext,
    surveyed_sample.of_sameBut hsame, merge_sampleSurvey, on_eq_of_fst hwrite⟩

theorem target_sample : dumpedFiles.target "out" = .ok "out" := run_dialogFiles.2.2.2.1

def wholeLayout : Layout where
  text := #[1, 0xCC, 0, 2, 0xCC, 0]
  offsets := ⟨[("0x0", 0), ("0x2", 3), ("0x6", 6), ("0x4", 3)]⟩
  lengths := ⟨[("0x0", 3), ("0x2", 3), ("0x6", 0), ("0x4", 0)]⟩

theorem layout_wholeTexts :
    (((wholeTexts.map Entry.ofText).foldlM (addEntry (sampleFont.typeface ∅ ∅)) {}).on
      dialogFiles).1 = .ok wholeLayout ∧
      wholeLayout.spans = .ok [(0, 3), (3, 3), (3, 0), (6, 0)] := by
  have hused : wholeLayout.offsets.keys.filter (fun k => !k.startsWith "UNUSED") =
      ["0x0", "0x2", "0x6", "0x4"] := by decide +kernel
  have hlisted : wholeLayout.listed = ["0x0", "0x2", "0x4", "0x6"] := by
    rw [Layout.listed, hused]
    simp [List.mergeSort, List.MergeSort.Internal.splitInTwo]
  rw [Layout.spans, hlisted]
  decide +kernel

theorem eq_sampleSheets
    (htext : (readNameList sampleFolders).on dialogFiles = (.ok text, dialogFiles))
    (hsurveyed : Surveyed dialogFiles sampleFont text first second names)
    (hsheets : mergeSections first.sections second.sections = .ok sheets) :
    sheets = sampleSheets := by
  obtain rfl := ok.inj (congrArg Prod.fst (htext.symm.trans on_readNameList_sample))
  obtain ⟨rfl, rfl⟩ := hsurveyed.unique surveyed_sample
  exact ok.inj (hsheets.symm.trans merge_sampleSurvey)

end Cartridge.Dialog
