import Cartridge.Proofs.Dialog.Lists
import Cartridge.Proofs.Dialog.Versions
import Cartridge.Proofs.Workspace.Files

/-!
# What a dump of dialog leaves

A dump reads its lists and both images, writes the sheets and the source, and adds the new names to
the list of names.  The lists of characters and portraits and the images stay as they are.

Main results: `on_readFont_of_sameBut` and `of_writeDialog`.
-/

namespace Cartridge.Dialog

open Workspace Job Charset Assembly Text

variable {f : Folders} {w w' : Workspace} {font : Font} {sheets : List (List Place)}
  {added : List (String × Nat)} {first second : Survey} {text list : List Char}

/-! ### Paths -/

def namesPath (f : Folders) : String := Path.join f.resources "ptrs.tbl"

def portraitsPath (f : Folders) : String := Path.join f.resources "portraits.tbl"

def IsDumped (key : String) : Prop := ∃ e ∈ ["ptrs.tbl", ".csv", ".asm"], EndsIn key e

theorem endsIn_namesPath (f : Folders) : EndsIn (plainPath (namesPath f)) "ptrs.tbl" :=
  endsIn_plainPath_join _ List.suffix_rfl (by decide)

theorem endsIn_sheetPath (f : Folders) (i : Nat) : EndsIn (plainPath (sheetPath f i)) ".csv" :=
  endsIn_plainPath_join _ (endsIn_append ..) (by decide)

theorem not_isDumped_image (v : Version) : ¬IsDumped (plainPath v.image) :=
  not_exists_endsIn (endsIn_append _ ".gbc") (by decide) (by decide)

theorem fileName_sheet (i : Nat) : FileName (sectionTitle i ++ ".csv") := by
  refine .append ?_ (by decide)
  rw [sectionTitle, String.toList_append, List.mem_append, not_or]
  exact ⟨by decide, fun hmem =>
    Numeral.forall_mem_write (p := (· ≠ '/')) (by omega) (by decide) 2 i _ hmem rfl⟩

theorem sheetPath_inj {i j : Nat} (h : plainPath (sheetPath f i) = plainPath (sheetPath f j)) :
    i = j := by
  have hname := plainPath_join_inj (fileName_sheet i) (fileName_sheet j) h
  rw [sectionTitle, sectionTitle, String.append_left_inj, String.append_right_inj] at hname
  exact Numeral.write_inj (by omega) (by omega) hname

/-! ### Reading the lists -/

def readFont (f : Folders) : Job Font := do
  let letters ← Lettering.readLetters
  let kanji ← ofTilesetAt "Kanji" 0
  let portraits ← readTable (portraitsPath f)
  return ⟨letters, kanji, portraits⟩

/-- Reads the list of names, which is empty if there is none. -/
def readNameList (f : Folders) : Job (List Char) := do
  if (← get).hasPath (namesPath f) then readText (namesPath f) else return []

theorem not_isDumped_tileset (name : String) :
    ¬IsDumped (plainPath ("scripts/res/tilesets/" ++ name ++ ".lst")) :=
  not_exists_endsIn (endsIn_append _ ".lst") (by decide) (by decide)

theorem readFont_ok_iff : (readFont f).on w = (.ok font, w') ↔
    w' = w ∧ Lettering.readLetters.on w = (.ok font.letters, w) ∧
      (ofTilesetAt "Kanji" 0).on w = (.ok font.kanji, w) ∧
      ∃ list, (readText (portraitsPath f)).on w = (.ok list, w) ∧
        parse codeOf list = .ok font.portraits := by
  simp only [readFont, readTable, on_bind_ok_iff, on_pure, on_lift, Prod.mk.injEq, Except.ok.injEq]
  constructor
  · rintro ⟨letters, _, hletters, kanji, _, hkanji, portraits, _, ⟨list, _, hlist, hportraits, rfl⟩,
      rfl, rfl⟩
    obtain rfl := Quiet.readLetters.eq hletters
    obtain rfl := (Quiet.ofTilesetAt _ _).eq hkanji
    obtain rfl := (Quiet.readText _).eq hlist
    exact ⟨rfl, hletters, hkanji, list, hlist, hportraits⟩
  · rintro ⟨rfl, hletters, hkanji, list, hlist, hportraits⟩
    exact ⟨_, _, hletters, _, _, hkanji, _, _, ⟨list, _, hlist, hportraits, rfl⟩, rfl, rfl⟩

theorem on_portraits_of_sameBut (hsame : SameBut IsDumped w w')
    (h : (readText (portraitsPath f)).on w = (.ok list, w)) :
    (readText (portraitsPath f)).on w' = (.ok list, w') :=
  on_readText_of_sameBut hsame
    (not_exists_endsIn (endsIn_join _ _ List.suffix_rfl) (by decide) (by decide)) h

theorem on_readFont_of_sameBut (hsame : SameBut IsDumped w w')
    (h : (readFont f).on w = (.ok font, w)) : (readFont f).on w' = (.ok font, w') := by
  obtain ⟨-, hletters, hkanji, list, hlist, hportraits⟩ := readFont_ok_iff.1 h
  exact readFont_ok_iff.2 ⟨rfl, on_readLetters_of_sameBut hsame not_isDumped_tileset hletters,
    on_ofTilesetAt_of_sameBut hsame (not_isDumped_tileset _) hkanji, list,
    on_portraits_of_sameBut hsame hlist, hportraits⟩

theorem of_openNames (h : (openNames (namesPath f)).on w = (.ok (), w'))
    (htext : (readText (namesPath f)).on w' = (.ok text, w')) :
    SameBut IsDumped w w' ∧ (readNameList f).on w = (.ok text, w) := by
  simp only [openNames, readNameList, on_bind_ok_iff, on_get, Prod.mk.injEq, Except.ok.injEq] at h ⊢
  obtain ⟨_, _, ⟨rfl, rfl⟩, h⟩ := h
  cases hpath : w.hasPath (namesPath f) with
  | true =>
    rw [hpath] at h
    cases h
    exact ⟨.refl _ _, w, w, ⟨rfl, rfl⟩, by rwa [hpath]⟩
  | false =>
    rw [hpath, Bool.not_false, if_pos rfl, on_discard_ok_iff] at h
    obtain ⟨key, hcreate⟩ := h
    obtain ⟨rfl, htarget, hcreated, hempty⟩ := of_create hcreate
    have hread : w'.read (namesPath f) = .ok "".toUTF8 :=
      read_ok_iff.2 ⟨_, hcreated.target htarget, hempty⟩
    obtain rfl := Except.ok.inj (congrArg Prod.fst (htext.symm.trans (on_readText hread)))
    refine ⟨hcreated.of_eq ⟨_, by decide, endsIn_namesPath f⟩, w, w, ⟨rfl, rfl⟩, ?_⟩
    rw [hpath]
    rfl

/-! ### The steps of a dump -/

/-- The dialog of the images of a workspace, in the characters of `font` and with the names of a
list: the surveys of both versions, and all names at the end. -/
def Surveyed (w : Workspace) (font : Font) (text : List Char) (first second : Survey)
    (names : Names) : Prop :=
  ∃ given between image image', parseNames text = .ok given ∧
    w.read Version.kabuto.image = .ok image ∧
    Survey.read font image (fun _ _ => .ok ()) given = .ok (first, between) ∧
    w.read Version.kuwagata.image = .ok image' ∧
    Survey.read font image' (checkAgainst first) between = .ok (second, names)

theorem Surveyed.of_sameBut {names : Names} (hsame : SameBut IsDumped w w')
    (h : Surveyed w font text first second names) :
    Surveyed w' font text first second names := by
  obtain ⟨given, between, image, image', hgiven, himage, hfirst, himage', hsecond⟩ := h
  exact ⟨given, between, image, image', hgiven, hsame.read himage (not_isDumped_image _), hfirst,
    hsame.read himage' (not_isDumped_image _), hsecond⟩

def writeDialog (f : Folders) (first second : Survey) (added : List (String × Nat))
    (sheets : List (List Place)) : Job Unit := do
  for (places, i) in sheets.zipIdx do
    writeSheet f places i
  let moved := movedSections first.addresses second.addresses
  write (Path.join f.source "text_tables.asm") (.ok (sharedLines f first.addresses moved))
  write (Path.join f.source "kabuto/text_tables.asm") (.ok (versionLines f first.addresses moved))
  write (Path.join f.source "kuwagata/text_tables.asm")
    (.ok (versionLines f second.addresses moved))
  writeFile (namesPath f) ((← readFile (namesPath f)) ++ (nameText added).toUTF8)

theorem dump_ok_iff : (dump f).on w = (.ok (), w') ↔
    ∃ w₁ font text first second names sheets,
      (openNames (namesPath f)).on w = (.ok (), w₁) ∧ (readFont f).on w₁ = (.ok font, w₁) ∧
      (readText (namesPath f)).on w₁ = (.ok text, w₁) ∧
      Surveyed w₁ font text first second names ∧
      mergeSections first.sections second.sections = .ok sheets ∧
      (writeDialog f first second names.added sheets).on w₁ = (.ok (), w') := by
  have hsteps : dump f = (do
      openNames (namesPath f)
      let font ← readFont f
      let names ← lift (parseNames (← readText (namesPath f)))
      let r ← lift
        (Survey.read font (← readFile Version.kabuto.image) (fun _ _ => .ok ()) names)
      let r' ← lift
        (Survey.read font (← readFile Version.kuwagata.image) (checkAgainst r.1) r.2)
      let sheets ← lift (mergeSections r.1.sections r'.1.sections)
      writeDialog f r.1 r'.1 r'.2.added sheets) := by
    simp only [dump, readFont, bind_assoc, pure_bind]
    rfl
  rw [hsteps]
  simp only [on_bind_ok_iff, on_lift, on_readFile_ok_iff, Prod.mk.injEq]
  constructor
  · rintro ⟨_, w₁, hopen, font, _, hfont, text, _, htext, names, _, ⟨hnames, rfl⟩, image, _,
      ⟨himage, rfl⟩, r, _, ⟨hfirst, rfl⟩, image', _, ⟨himage', rfl⟩, r', _, ⟨hsecond, rfl⟩,
      sheets, _, ⟨hsheets, rfl⟩, hwrite⟩
    obtain ⟨rfl, -⟩ := readFont_ok_iff.1 hfont
    obtain rfl := (Quiet.readText _).eq htext
    exact ⟨_, font, text, r.1, r'.1, r'.2, sheets, hopen, hfont, htext,
      ⟨names, r.2, image, image', hnames, himage, hfirst, himage', hsecond⟩, hsheets, hwrite⟩
  · rintro ⟨w₁, font, text, first, second, names₂, sheets, hopen, hfont, htext,
      ⟨names, names₁, image, image', hnames, himage, hfirst, himage', hsecond⟩, hsheets, hwrite⟩
    exact ⟨(), w₁, hopen, font, w₁, hfont, text, w₁, htext, names, w₁, ⟨hnames, rfl⟩, image, w₁,
      ⟨himage, rfl⟩, (first, names₁), w₁, ⟨hfirst, rfl⟩, image', w₁, ⟨himage', rfl⟩,
      (second, names₂), w₁, ⟨hsecond, rfl⟩, sheets, w₁, ⟨hsheets, rfl⟩, hwrite⟩

/-! ### Sheets -/

/-- The sheet of section `i` can be read, and each version finds the texts of the places in it. -/
def SheetHolds (f : Folders) (w : Workspace) (i : Nat) (places : List Place) : Prop :=
  ∃ s, (readMarkedText (sheetPath f i)).on w = (.ok s, w) ∧
    ∀ v : Version, Sheet.chosen "Original" v.name (Csv.parse s) =
      .ok ((places.flatMap (Place.texts v)).map readBack)

variable {P : String → Prop} {places : List Place} {i n : Nat}

theorem SheetHolds.of_sameBut (hsame : SameBut P w w') (hpath : ¬P (plainPath (sheetPath f i)))
    (h : SheetHolds f w i places) : SheetHolds f w' i places := by
  obtain ⟨s, hs, hchosen⟩ := h
  obtain ⟨text, htext, rfl⟩ := on_map_ok_iff.1 hs
  have htext' := on_readText_of_sameBut hsame hpath htext
  exact ⟨_, on_map_ok_iff.2 ⟨text, htext', rfl⟩, hchosen⟩

theorem sameBut_of_writeSheet (h : (writeSheet f places i).on w = (.ok (), w')) :
    SameBut (· = plainPath (sheetPath f i)) w w' := by
  simp only [writeSheet, on_bind_ok_iff, on_lift, Prod.mk.injEq] at h
  obtain ⟨key, v, hcreate, rows, _, ⟨-, rfl⟩, happend⟩ := h
  obtain ⟨rfl, -, hcreated, -⟩ := of_create hcreate
  exact hcreated.trans (sameBut_of_append happend)

theorem sameBut_of_write {path : String} {lines : Except Fault (List Line)}
    (hpath : EndsIn path ".asm") (h : (write path lines).on w = (.ok (), w')) :
    SameBut (EndsIn · ".asm") w w' :=
  (of_write h).1.of_eq (endsIn_plainPath hpath (by decide))

/-! ### The list of names -/

theorem unifyNewlines_append_nameText (hadded : ∀ e ∈ added, ∃ n, e.1 = madeUpName n)
    (s : List Char) :
    unifyNewlines (s ++ (nameText added).toList) = unifyNewlines s ++ (nameText added).toList := by
  have hline : '\r' ∉ (nameText added).toList := by
    rw [toList_nameText, List.mem_flatMap]
    rintro ⟨e, he, hmem⟩
    exact forall_mem_addedLine (p := (· ≠ '\r')) (hadded e he) (by decide) (by decide) (by decide)
      (by decide) _ hmem rfl
  have hhead : (nameText added).toList.head? ≠ some '\n' := by
    rw [toList_nameText]
    cases added with
    | nil => decide
    | cons e added =>
      obtain ⟨n, hn⟩ := hadded e List.mem_cons_self
      simp [addedLine, hn, madeUpName, String.toList_append]
  rw [unifyNewlines_append hhead, unifyNewlines_of_notMem hline]

/-- **What writing dialog leaves**: sheets with their sections, and new names at the end of the list
of names. -/
theorem of_writeDialog (hadded : ∀ e ∈ added, ∃ n, e.1 = madeUpName n)
    (htext : (readText (namesPath f)).on w = (.ok text, w))
    (h : (writeDialog f first second added sheets).on w = (.ok (), w')) :
    SameBut IsDumped w w' ∧ (∀ i places, sheets[i]? = some places → SheetHolds f w' i places) ∧
      (readText (namesPath f)).on w' = (.ok (text ++ (nameText added).toList), w') := by
  simp only [writeDialog, on_bind_ok_iff, on_readFile_ok_iff] at h
  obtain ⟨_, w₁, hloop, ⟨⟩, w₂, hshared, ⟨⟩, w₃, hkabuto, ⟨⟩, _, hkuwagata, data, w₄, ⟨hdata, rfl⟩,
    hnames⟩ := h
  -- no later sheet is written to the file of a section
  obtain ⟨hsame, hholds⟩ := of_forIn_zipIdx (Q := SheetHolds f) sheetPath_inj
    (fun h => ⟨sameBut_of_writeSheet h, chosen_writeSheet h⟩) SheetHolds.of_sameBut hloop
  have hsheets : SameBut (EndsIn · ".csv") w w₁ := by
    refine hsame.mono ?_
    rintro _ ⟨j, -, rfl⟩
    exact endsIn_sheetPath f j
  have hsource : SameBut (EndsIn · ".asm") w₁ w₄ := by
    have hasm : ∀ name : String, ".asm".toList <:+ name.toList →
        EndsIn (Path.join f.source name) ".asm" := fun name => endsIn_join _ _
    exact ((sameBut_of_write (hasm _ (by decide)) hshared).trans
      (sameBut_of_write (hasm _ (by decide)) hkabuto)).trans
      (sameBut_of_write (hasm _ (by decide)) hkuwagata)
  have hlist : SameBut (EndsIn · "ptrs.tbl") w₄ w' :=
    (of_writeFile hnames).of_eq (endsIn_namesPath f)
  refine ⟨?_, fun i places hi => ?_, ?_⟩
  · refine ((hsheets.mono fun key hkey => ?_).trans (hsource.mono fun key hkey => ?_)).trans
      (hlist.mono fun key hkey => ?_)
    · exact ⟨_, by decide, hkey⟩
    · exact ⟨_, by decide, hkey⟩
    · exact ⟨_, by decide, hkey⟩
  · have hi := hholds i places hi
    rw [Nat.zero_add] at hi
    have hcsv := endsIn_sheetPath f i
    exact (hi.of_sameBut hsource (hcsv.not_endsIn (by decide))).of_sameBut hlist
      (hcsv.not_endsIn (by decide))
  · obtain ⟨s, hs, rfl, -⟩ := on_readText_ok_iff.1 htext
    have htbl := endsIn_namesPath f
    have hkept := hsource.read (hsheets.read hs (htbl.not_endsIn (by decide)))
      (htbl.not_endsIn (by decide))
    obtain rfl := Except.ok.inj (hdata.symm.trans hkept)
    have hread : w'.read (namesPath f) = .ok (s ++ nameText added).toUTF8 :=
      (read_of_writeFile hnames).trans (congrArg _ String.toByteArray_append.symm)
    rw [← unifyNewlines_append_nameText hadded, ← String.toList_append]
    exact on_readText hread

end Cartridge.Dialog
