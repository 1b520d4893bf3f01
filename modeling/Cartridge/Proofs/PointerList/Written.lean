import Cartridge.Proofs.Dialog.Lists
import Cartridge.Proofs.PointerList.Columns
import Cartridge.Proofs.Text.Csv
import Cartridge.Proofs.Workspace.Files

/-!
# What a dump of pointer lists leaves

A dump reads the characters and both images, and writes a text for every list and the source.

Main results: `listedRows_of_dump` and `exists_on_dump`.
-/

open List

namespace Cartridge.PointerList

open Workspace Text Job Charset Lettering
open String (toList_append)

variable {f : Folders} {w w₁ w' : Workspace} {s : Spec} {faces : Faces} {c e q : Char} {l : String}

/-! ### Lines -/

section

variable (hc : c ∈ ['\r', '\n'])

include hc

theorem ne_of_break (he : e ∉ ['\r', '\n']) : c ≠ e :=
  fun heq => he (heq ▸ hc)

theorem notMem_literal (hl : '\r' ∉ l.toList ∧ '\n' ∉ l.toList) : c ∉ l.toList := by
  obtain rfl | rfl : c = '\r' ∨ c = '\n' := by simpa using hc
  · exact hl.1
  · exact hl.2

theorem notMem_codeEscape (n : Nat) : c ∉ codeEscape n := by
  have hdigits : ∀ width, c ∉ (Numeral.hex width n).toList := fun width hmem =>
    Numeral.forall_mem_write (p := (· ∉ ['\r', '\n'])) (by omega) (by decide) width n c hmem hc
  have hslash : c ≠ '\\' := ne_of_break hc (by decide)
  unfold codeEscape
  split_ifs
  · simp [hdigits, hslash, ne_of_break hc (e := 'x') (by decide)]
  · simp [hdigits, hslash, ne_of_break hc (e := 'u') (by decide)]
  · simp [hdigits, hslash, ne_of_break hc (e := 'U') (by decide)]

theorem notMem_quoteChar (hq : q ∉ ['\r', '\n']) (d : Char) : c ∉ quoteChar q d := by
  have hslash : c ≠ '\\' := ne_of_break hc (by decide)
  unfold quoteChar
  by_cases hquote : d = q ∨ d = '\\'
  · obtain rfl | rfl := hquote
    · simp [hslash, ne_of_break hc hq]
    · simp [hslash]
  · rw [if_neg hquote]
    cases hshort : shortEscape? d with
    | some e =>
      unfold shortEscape? at hshort
      split_ifs at hshort
      · obtain rfl := Option.some.inj hshort
        simp [hslash, ne_of_break hc (e := 'n') (by decide)]
      · obtain rfl := Option.some.inj hshort
        simp [hslash, ne_of_break hc (e := 'r') (by decide)]
      · obtain rfl := Option.some.inj hshort
        simp [hslash, ne_of_break hc (e := 't') (by decide)]
    | none =>
      have hd : d ∉ ['\r', '\n'] := by
        rintro hmem
        obtain rfl | rfl : d = '\r' ∨ d = '\n' := by simpa using hmem
        · cases hshort
        · cases hshort
      split_ifs
      · simp [ne_of_break hc hd]
      · exact notMem_codeEscape hc d.toNat

theorem notMem_quote (s : String) : c ∉ (quote s).toList := by
  have hq : quoteFor s.toList ∉ ['\r', '\n'] := by
    unfold quoteFor
    split_ifs
    · decide
    · decide
  rw [quote, String.toList_ofList, cons_append, mem_cons, mem_append, mem_flatMap, mem_singleton]
  rintro (rfl | ⟨d, -, hmem⟩ | rfl)
  · exact hq hc
  · exact notMem_quoteChar hc hq d hmem
  · exact hq hc

end

section Values

open Value (render renderAll)

variable {vs : List Value}

theorem forall_mem_renderAll (h : ∀ v ∈ vs, c ∉ (render v).toList) :
    ∀ item ∈ renderAll vs, c ∉ item.toList := by
  induction vs with
  | nil => exact fun _ hmem => absurd hmem not_mem_nil
  | cons v vs ih =>
    obtain ⟨hv, hvs⟩ := forall_mem_cons.1 h
    exact forall_mem_cons.2 ⟨hv, ih hvs⟩

section

variable (hc : c ∈ ['\r', '\n'])

include hc

theorem notMem_enclosed {m r : String} (hl : '\r' ∉ l.toList ∧ '\n' ∉ l.toList)
    (hr : '\r' ∉ r.toList ∧ '\n' ∉ r.toList) (hm : c ∉ m.toList) : c ∉ (l ++ m ++ r).toList := by
  simp only [toList_append, mem_append, not_or]
  exact ⟨⟨notMem_literal hc hl, hm⟩, notMem_literal hc hr⟩

theorem notMem_list (h : ∀ v ∈ vs, c ∉ (render v).toList) : c ∉ (render (.list vs)).toList :=
  notMem_enclosed hc (by decide) (by decide)
    (notMem_intercalate (notMem_literal hc (by decide)) (forall_mem_renderAll h))

theorem notMem_tuple (h : ∀ v ∈ vs, c ∉ (render v).toList) : c ∉ (render (.tuple vs)).toList := by
  have hitems := forall_mem_renderAll h
  change c ∉ (parenthesized (renderAll vs)).toList
  unfold parenthesized
  split
  · case h_1 item hitem =>
    rw [hitem] at hitems
    exact notMem_enclosed hc (by decide) (by decide) (hitems item (mem_singleton_self _))
  · exact notMem_enclosed hc (by decide) (by decide)
      (notMem_intercalate (notMem_literal hc (by decide)) hitems)

theorem notMem_toString (n : Int) : c ∉ (toString n).toList := by
  have hdigits : ∀ k : Nat, c ∉ (toString k).toList := fun k hmem =>
    Numeral.forall_mem_toString (p := (· ∉ ['\r', '\n'])) (by decide) k c hmem hc
  cases n with
  | ofNat k => exact hdigits k
  | negSucc k =>
    change c ∉ ("-" ++ toString (k + 1)).toList
    rw [toList_append, mem_append, not_or]
    exact ⟨notMem_literal hc (by decide), hdigits (k + 1)⟩

theorem notMem_flag (b : Bool) : c ∉ (render (.flag b)).toList := by
  cases b with
  | false => exact notMem_literal (l := "False") hc (by decide)
  | true => exact notMem_literal (l := "True") hc (by decide)

theorem notMem_none : c ∉ (render .none).toList :=
  notMem_literal (l := "None") hc (by decide)

theorem notMem_number (n : Option Nat) : c ∉ (render (Spec.number n)).toList := by
  cases n with
  | none => exact notMem_none hc
  | some n => exact notMem_toString hc n

theorem notMem_text (text : Option String) :
    c ∉ (render ((text.map Value.text).getD .none)).toList := by
  cases text with
  | none => exact notMem_none hc
  | some text => exact notMem_quote hc text

theorem notMem_heading (s : Spec) : c ∉ (render s.heading).toList := by
  refine notMem_tuple hc ?_
  simp only [forall_mem_cons]
  refine ⟨notMem_toString hc _, notMem_list hc ?_, notMem_list hc ?_, notMem_list hc ?_,
    notMem_list hc ?_, notMem_text hc _, ?_, notMem_flag hc _, notMem_text hc _,
    fun _ hmem => absurd hmem not_mem_nil⟩
  · rw [forall_mem_map]
    exact fun label _ => notMem_quote hc label
  · rw [forall_mem_map]
    exact fun spec _ => notMem_number hc _
  · rw [forall_mem_map]
    intro spec _
    refine notMem_tuple hc ?_
    simp only [forall_mem_cons]
    exact ⟨notMem_number hc _, notMem_number hc _, fun _ hmem => absurd hmem not_mem_nil⟩
  · rw [forall_mem_map]
    exact fun spec _ => notMem_flag hc _
  · cases s.lead with
    | none => exact notMem_none hc
    | some ns =>
      refine notMem_list hc ?_
      rw [forall_mem_map]
      exact fun n _ => notMem_toString hc n

end

end Values

/-! ### Entries without line ends -/

section Entries

variable {image : ByteArray} {absent : Option String} {pos : Nat} {specs : List FieldSpec}
  {a : List String} {slot : Slot.Stored} {d : Dumped}

section

variable (hf : ∀ e ∈ faces.letters.entries ++ faces.kanji.entries, c ∉ e.2.toList)
  (hc : c ∈ ['\r', '\n'])

include hf hc

theorem notMem_readFields (h : readFields image faces absent pos specs = .ok a) :
    ∀ text ∈ a, c ∉ text.toList := by
  induction specs generalizing pos a with
  | nil =>
    cases h
    simp
  | cons spec specs ih =>
    obtain ⟨ns, next, text, more, hread, hshow, rfl, hmore⟩ := readFields_cons_ok_iff.1 h
    refine forall_mem_cons.2 ⟨notMem_showField hf (lt_of_readCodes hread) hc hshow, ?_⟩
    split_ifs at hmore with habsent
    · simp [hmore]
    · exact ih hmore

theorem notMem_readEntry (h : readEntry image faces s slot = .ok a) :
    ∀ text ∈ a, c ∉ text.toList := by
  obtain ⟨i, -, rfl⟩ | ⟨_, _, -, hfields⟩ | ⟨address, _, _, fields, -, hfields, rfl⟩ :=
    readEntry_cases h
  · rw [forall_mem_singleton, toList_append, mem_append, not_or]
    exact ⟨notMem_literal hc (by decide), notMem_toString hc i⟩
  · exact notMem_readFields hf hc hfields
  · have hlead : c ∉ (memoryLead address).toList := by
      rw [memoryLead, toList_append, mem_append, not_or]
      exact ⟨fun hmem => forall_mem_address (p := (· ∉ ['\r', '\n'])) (by decide) (by decide)
        address c hmem hc, notMem_literal hc (by decide)⟩
    have hplain := notMem_readFields hf hc hfields
    cases fields with
    | nil => simpa [leadWith] using hlead
    | cons field rest =>
      obtain ⟨hfield, hrest⟩ := forall_mem_cons.1 hplain
      refine forall_mem_cons.2 ⟨?_, hrest⟩
      rw [toList_append, mem_append, not_or]
      exact ⟨hlead, hfield⟩

theorem notMem_entries (h : Dumped.read image faces s = .ok d) :
    ∀ a ∈ d.entries, ∀ text ∈ a, c ∉ text.toList := by
  simp only [Dumped.read, bind_ok_iff, pure_ok_iff] at h
  obtain ⟨table, -, entries, hentries, rfl⟩ := h
  intro a ha
  obtain ⟨slot, -, hread⟩ := exists_of_mem_mapM hentries ha
  exact notMem_readEntry hf hc hread

end

end Entries

/-! ### Rows -/

section Rows

variable {first second rs : List (List String)} {table : Slots} {row fields : List String} {i : Nat}

theorem mem_entryRows {a b : Option (List String)} (h : row ∈ entryRows i a b) :
    ∃ cell columns, row = cell :: columns ∧ (some columns = a ∨ some columns = b) ∧
      (cell = toString i ∨ ∃ v : Version, cell = toString i ++ "#" ++ v.name) := by
  unfold entryRows at h
  cases a with
  | none =>
    cases b with
    | none => simp at h
    | some b => exact ⟨_, _, mem_singleton.1 h, .inr rfl, .inr ⟨.kuwagata, rfl⟩⟩
  | some a =>
    cases b with
    | none => exact ⟨_, _, mem_singleton.1 h, .inl rfl, .inr ⟨.kabuto, rfl⟩⟩
    | some b =>
      dsimp only at h
      split_ifs at h
      · exact ⟨_, _, mem_singleton.1 h, .inl rfl, .inl rfl⟩
      · obtain h | h := mem_cons.1 h
        · exact ⟨_, _, h, .inl rfl, .inr ⟨.kabuto, rfl⟩⟩
        · exact ⟨_, _, mem_singleton.1 h, .inr rfl, .inr ⟨.kuwagata, rfl⟩⟩

theorem ne_nil_of_mem_rows (h : row ∈ rows first second) : row ≠ [] := by
  obtain ⟨i, -, hrow⟩ := mem_flatMap.1 h
  obtain ⟨cell, columns, rfl, -⟩ := mem_entryRows hrow
  exact cons_ne_nil _ _

theorem notMem_version (hc : c ∈ ['\r', '\n']) (v : Version) : c ∉ v.name.toList := by
  cases v with
  | kabuto | kuwagata => exact notMem_literal hc (by decide)

theorem notMem_rows (hc : c ∈ ['\r', '\n']) (hfirst : ∀ a ∈ first, ∀ text ∈ a, c ∉ text.toList)
    (hsecond : ∀ a ∈ second, ∀ text ∈ a, c ∉ text.toList) (h : row ∈ rows first second) :
    ∀ cell ∈ row, c ∉ cell.toList := by
  obtain ⟨i, -, hrow⟩ := mem_flatMap.1 h
  obtain ⟨cell, columns, rfl, hcolumns, hcell⟩ := mem_entryRows hrow
  refine forall_mem_cons.2 ⟨?_, ?_⟩
  · have hindex : c ∉ (toString i).toList := notMem_toString hc i
    obtain rfl | ⟨v, rfl⟩ := hcell
    · exact hindex
    · simp only [toList_append, mem_append, not_or]
      exact ⟨⟨hindex, notMem_literal hc (by decide)⟩, notMem_version hc v⟩
  · obtain ha | hb := hcolumns
    · exact hfirst columns (mem_of_getElem? ha.symm)
    · exact hsecond columns (mem_of_getElem? hb.symm)

theorem notMem_joined (hc : c ∈ ['\r', '\n']) (h : ∀ field ∈ fields, c ∉ field.toList) :
    c ∉ Csv.joined fields := by
  refine notMem_intercalate (notMem_literal hc (by decide)) ?_
  rw [forall_mem_map]
  intro field hfield
  have hplain := h field hfield
  unfold Csv.renderField
  split_ifs
  · have hquote : c ≠ '"' := ne_of_break hc (by decide)
    have hdoubled : c ∉ Csv.doubleQuotes field.toList := by
      rw [Csv.doubleQuotes, mem_flatMap]
      rintro ⟨d, hd, hmem⟩
      split_ifs at hmem with hq
      · simp [hquote] at hmem
      · obtain rfl := mem_singleton.1 hmem
        exact hplain hd
    simp [hquote, hdoubled]
  · exact hplain

def columnLine (s : Spec) : List Char := Csv.joined ("Index[#version]" :: s.columns)

/-- The rows of a list, which stand behind its heading, its numbers and the names of its columns. -/
def listedRows (text : List Char) : List (List String) :=
  Csv.parse ((lines text).drop 4).flatten

theorem toList_textOf (s : Spec) (table : Slots) (rs : List (List String)) :
    (textOf s table rs).toList = s.heading.render.toList ++ '\n' ::
      ((toString table.count).toList ++ '\n' :: ((toString table.empty).toList ++ '\n' ::
        (columnLine s ++ '\n' :: (String.join (rs.map Csv.render)).toList))) := by
  have hcolumns : (Csv.render ("Index[#version]" :: s.columns)).toList =
      columnLine s ++ ['\n'] := Csv.toList_render (by simp)
  have hnewline : "\n".toList = ['\n'] := rfl
  simp only [textOf, map_cons, String.join_cons, toList_append, hcolumns, hnewline,
    append_assoc, cons_append, nil_append]

theorem listedRows_textOf (hcolumns : '\n' ∉ columnLine s) (hrs : ∀ row ∈ rs, row ≠ []) :
    listedRows (textOf s table rs).toList = rs := by
  have hlf : '\n' ∈ ['\r', '\n'] := by decide
  rw [listedRows, toList_textOf, lines_append_newline (notMem_heading hlf s),
    lines_append_newline (notMem_toString hlf _),
    lines_append_newline (notMem_toString hlf _), lines_append_newline hcolumns]
  simp only [drop_succ_cons, drop_zero]
  rw [flatten_lines, Csv.parse_render hrs]

theorem notMem_renders (h : ∀ row ∈ rs, ∀ cell ∈ row, '\r' ∉ cell.toList) :
    '\r' ∉ (String.join (rs.map Csv.render)).toList := by
  have hrow : ∀ row ∈ rs, row.map unified = id row := fun row hrow =>
    (map_congr_left fun cell hcell =>
      unified_eq_iff.2 (h row hrow cell hcell)).trans (map_id row)
  have hsame : rs.map (List.map unified) = rs :=
    (map_congr_left hrow).trans (map_id rs)
  have hunify := Csv.unifyNewlines_renders rs
  rw [hsame] at hunify
  rw [← hunify]
  exact notMem_unifyNewlines _

theorem notMem_textOf (hcolumns : '\r' ∉ columnLine s)
    (h : ∀ row ∈ rs, ∀ cell ∈ row, '\r' ∉ cell.toList) : '\r' ∉ (textOf s table rs).toList := by
  have hcr : '\r' ∈ ['\r', '\n'] := by decide
  have hne : '\r' ≠ '\n' := by decide
  simp only [toList_textOf, mem_append, mem_cons, not_or]
  exact ⟨notMem_heading hcr s, hne, notMem_toString hcr _, hne, notMem_toString hcr _, hne,
    hcolumns, hne, notMem_renders h⟩

theorem notMem_columnLine (hc : c ∈ ['\r', '\n']) (hs : s ∈ allSpecs) : c ∉ columnLine s := by
  have hlabels : ∀ s ∈ allSpecs, ∀ label ∈ s.labels,
      '\r' ∉ label.toList ∧ '\n' ∉ label.toList := by decide
  refine notMem_joined hc (forall_mem_cons.2 ⟨notMem_literal hc (by decide), ?_⟩)
  unfold Spec.columns
  split_ifs
  · rw [forall_mem_map]
    intro i _
    rw [toList_append, mem_append, not_or]
    exact ⟨notMem_literal hc (by decide), fun hmem =>
      Numeral.forall_mem_upperHex (p := (· ∉ ['\r', '\n'])) (by decide) 2 i c hmem hc⟩
  · exact fun label hlabel => notMem_literal hc (hlabels s hs label hlabel)

end Rows

/-! ### Paths -/

def listPath (f : Folders) (s : Spec) : String := Path.join f.texts (s.name ++ ".txt")

def sourcePath (f : Folders) (v : Version) : String :=
  Path.join f.source (v.name ++ "/ptrlist_data.asm")

def IsWritten (key : String) : Prop := ∃ e ∈ [".txt", ".asm"], EndsIn key e

theorem not_isWritten_tileset (name : String) :
    ¬IsWritten (plainPath ("scripts/res/tilesets/" ++ name ++ ".lst")) :=
  not_exists_endsIn (endsIn_append _ ".lst") (by decide) (by decide)

theorem not_isWritten_image (v : Version) : ¬IsWritten (plainPath v.image) :=
  not_exists_endsIn (endsIn_append _ ".gbc") (by decide) (by decide)

theorem endsIn_listPath (f : Folders) (s : Spec) : EndsIn (plainPath (listPath f s)) ".txt" :=
  endsIn_plainPath_join _ (endsIn_append ..) (by decide)

theorem endsIn_sourcePath (f : Folders) (v : Version) :
    EndsIn (plainPath (sourcePath f v)) ".asm" :=
  endsIn_plainPath_join _ (EndsIn.append
    (show ".asm".toList <:+ "/ptrlist_data.asm".toList by decide) v.name) (by decide)

theorem fileName_list (hs : s ∈ allSpecs) : FileName (s.name ++ ".txt") := by
  have hnames : ∀ s ∈ allSpecs, '/' ∉ s.name.toList := by decide
  exact .append (hnames s hs) (by decide)

theorem listPath_inj {s' : Spec} (hs : s ∈ allSpecs) (hs' : s' ∈ allSpecs)
    (h : plainPath (listPath f s) = plainPath (listPath f s')) : s.name = s'.name := by
  have hname := plainPath_join_inj (fileName_list hs) (fileName_list hs') h
  rwa [String.append_left_inj] at hname

/-! ### Dumping a list -/

def lettersFor (s : Spec) (default : Charset) : Job Charset :=
  match s.tileset with
  | some name => ofTilesetAt name 0
  | none => pure default

/-- The list of a version as it is read from its image in a workspace. -/
def DumpedFrom (w : Workspace) (faces : Faces) (s : Spec) (v : Version) (d : Dumped) : Prop :=
  ∃ image, w.read v.image = .ok image ∧ Dumped.read image faces s = .ok d

variable {default : Faces} {first second d d' : Dumped} {v : Version} {letters : Charset}

theorem quiet_lettersFor (s : Spec) (default : Charset) : (lettersFor s default).Quiet := by
  unfold lettersFor
  split
  · exact .ofTilesetAt _ _
  · exact .pure _

theorem on_lettersFor_of_sameBut {default : Charset} (hsame : SameBut IsWritten w w')
    (h : (lettersFor s default).on w = (.ok letters, w)) :
    (lettersFor s default).on w' = (.ok letters, w') := by
  unfold lettersFor at h ⊢
  split at h
  · exact on_ofTilesetAt_of_sameBut hsame (not_isWritten_tileset _) h
  · cases h
    rfl

theorem DumpedFrom.of_sameBut (hsame : SameBut IsWritten w w') (h : DumpedFrom w faces s v d) :
    DumpedFrom w' faces s v d := by
  obtain ⟨image, himage, hd⟩ := h
  exact ⟨image, hsame.read himage (not_isWritten_image v), hd⟩

theorem DumpedFrom.unique (h : DumpedFrom w faces s v d) (h' : DumpedFrom w faces s v d') :
    d = d' := by
  obtain ⟨image, himage, hread⟩ := h
  obtain ⟨image', himage', hread'⟩ := h'
  obtain rfl := Except.ok.inj (himage.symm.trans himage')
  exact Except.ok.inj (hread.symm.trans hread')

theorem dumpVersion_ok_iff : (dumpVersion f faces s v).on w = (.ok d, w') ↔
    (writeText (sourcePath f v) (Assembly.render [.inclusion f.sharedPath])).on w =
      (.ok (), w') ∧ DumpedFrom w' faces s v d := by
  simp only [dumpVersion, on_bind_ok_iff, on_readFile_ok_iff, on_lift, Prod.mk.injEq]
  constructor
  · rintro ⟨⟨⟩, _, hwrite, image, _, ⟨himage, rfl⟩, hd, rfl⟩
    exact ⟨hwrite, image, himage, hd⟩
  · rintro ⟨hwrite, image, himage, hd⟩
    exact ⟨(), w', hwrite, image, w', ⟨himage, rfl⟩, hd, rfl⟩

def textOfBoth (s : Spec) (first second : Dumped) : String :=
  textOf s first.slots (rows first.entries second.entries)

theorem dumpList_ok_iff : (dumpList f default s).on w = (.ok (), w') ↔
    ∃ letters key w₁ w₂ w₃ first second,
      (lettersFor s default.letters).on w = (.ok letters, w) ∧
      (create (listPath f s)).on w = (.ok key, w₁) ∧
      (dumpVersion f ⟨letters, default.kanji⟩ s .kabuto).on w₁ = (.ok first, w₂) ∧
      (dumpVersion f ⟨letters, default.kanji⟩ s .kuwagata).on w₂ = (.ok second, w₃) ∧
      (appendMarked key (textOfBoth s first second)).on w₃ = (.ok (), w') := by
  have hsteps : dumpList f default s = (do
      let letters ← lettersFor s default.letters
      let key ← create (listPath f s)
      let first ← dumpVersion f ⟨letters, default.kanji⟩ s .kabuto
      let second ← dumpVersion f ⟨letters, default.kanji⟩ s .kuwagata
      appendMarked key (textOfBoth s first second)) := by
    unfold dumpList lettersFor
    cases s.tileset with
    | none | some name => rfl
  rw [hsteps]
  simp only [on_bind_ok_iff]
  constructor
  · rintro ⟨letters, _, hletters, key, w₁, hcreate, first, w₂, hfirst, second, w₃, hsecond, happend⟩
    obtain rfl := (quiet_lettersFor _ _).eq hletters
    exact ⟨letters, key, w₁, w₂, w₃, first, second, hletters, hcreate, hfirst, hsecond, happend⟩
  · rintro ⟨letters, key, w₁, w₂, w₃, first, second, hletters, hcreate, hfirst, hsecond, happend⟩
    exact ⟨letters, w, hletters, key, w₁, hcreate, first, w₂, hfirst, second, w₃, hsecond, happend⟩

structure ListWritten (f : Folders) (default : Faces) (w w' : Workspace) (s : Spec) (faces : Faces)
    (first second : Dumped) : Prop where
  letters : (lettersFor s default.letters).on w = (.ok faces.letters, w)
  kanji : faces.kanji = default.kanji
  kabuto : DumpedFrom w faces s .kabuto first
  kuwagata : DumpedFrom w faces s .kuwagata second
  text : w'.read (listPath f s) = .ok (byteOrderMark.toString ++ textOfBoth s first second).toUTF8

theorem sameBut_of_source {text : String}
    (h : (writeText (sourcePath f v) text).on w = (.ok (), w')) :
    SameBut (EndsIn · ".asm") w w' :=
  (of_writeFile h).of_eq (endsIn_sourcePath f v)

def IsWrittenFor (f : Folders) (s : Spec) (key : String) : Prop :=
  key = plainPath (listPath f s) ∨ EndsIn key ".asm"

theorem IsWrittenFor.isWritten {key : String} (h : IsWrittenFor f s key) : IsWritten key := by
  obtain rfl | hsource := h
  · exact ⟨".txt", by decide, endsIn_listPath f s⟩
  · exact ⟨".asm", by decide, hsource⟩

/-- **One list** is written, and nothing else but source. -/
theorem of_dumpList (h : (dumpList f default s).on w = (.ok (), w')) :
    SameBut (IsWrittenFor f s) w w' ∧
      ∃ faces first second, ListWritten f default w w' s faces first second := by
  obtain ⟨letters, key, w₁, w₂, w₃, first, second, hletters, hcreate, hfirst, hsecond, happend⟩ :=
    dumpList_ok_iff.1 h
  obtain ⟨hwrite, hfirst⟩ := dumpVersion_ok_iff.1 hfirst
  obtain ⟨hwrite', hsecond⟩ := dumpVersion_ok_iff.1 hsecond
  have hsource := sameBut_of_source hwrite
  have hsource' := sameBut_of_source hwrite'
  -- The file of the list is still empty when its text is added.
  obtain ⟨hsame, -, hread⟩ := of_create_append hcreate (hsource.trans hsource') happend
    ((endsIn_listPath f s).not_endsIn (by decide))
  obtain ⟨rfl, -, hcreated, -⟩ := of_create hcreate
  have hsame₂ : SameBut (IsWrittenFor f s) w w₂ :=
    (hcreated.mono fun _ => .inl).trans (hsource.mono fun _ => .inr)
  have hsame₃ : SameBut (IsWrittenFor f s) w w₃ := hsame₂.trans (hsource'.mono fun _ => .inr)
  exact ⟨hsame, ⟨letters, default.kanji⟩, first, second, hletters, rfl,
    hfirst.of_sameBut (hsame₂.symm.mono fun _ => IsWrittenFor.isWritten),
    hsecond.of_sameBut (hsame₃.symm.mono fun _ => IsWrittenFor.isWritten), hread⟩

theorem of_dumpLists {specs : List Spec} (hspecs : specs ⊆ allSpecs)
    (hnodup : (specs.map Spec.name).Nodup)
    (h : (specs.forM (dumpList f default)).on w = (.ok (), w')) :
    SameBut (fun key => ∃ s ∈ specs, IsWrittenFor f s key) w w' ∧
      ∀ s ∈ specs, ∃ faces first second, ListWritten f default w w' s faces first second := by
  induction specs generalizing w with
  | nil =>
    cases h
    exact ⟨.refl _ _, by simp⟩
  | cons s specs ih =>
    obtain ⟨⟨⟩, w₁, hfirst, hrest⟩ := on_bind_ok_iff.1 h
    obtain ⟨hs, hspecs⟩ := cons_subset.1 hspecs
    rw [map_cons, nodup_cons] at hnodup
    obtain ⟨hsame, faces, first, second, hwritten⟩ := of_dumpList hfirst
    obtain ⟨hsame', hothers⟩ := ih hspecs hnodup.2 hrest
    refine ⟨?_, forall_mem_cons.2 ⟨⟨faces, first, second, ?_⟩, fun s' hs' => ?_⟩⟩
    · refine (hsame.mono fun key hkey => ⟨s, mem_cons_self, hkey⟩).trans (hsame'.mono ?_)
      rintro key ⟨s', hs', hkey⟩
      exact ⟨s', mem_cons_of_mem _ hs', hkey⟩
    · refine { hwritten with text := hsame'.read hwritten.text ?_ }
      rintro ⟨s', hs', heq | hsource⟩
      · exact hnodup.1 (listPath_inj hs (hspecs hs') heq ▸ mem_map_of_mem hs')
      · exact (endsIn_listPath f s).not_endsIn (by decide) hsource
    · obtain ⟨faces, first, second, hwritten⟩ := hothers s' hs'
      have hback : SameBut IsWritten w₁ w := hsame.symm.mono fun _ => IsWrittenFor.isWritten
      exact ⟨faces, first, second, on_lettersFor_of_sameBut hback hwritten.letters, hwritten.kanji,
        hwritten.kabuto.of_sameBut hback, hwritten.kuwagata.of_sameBut hback, hwritten.text⟩

/-! ### Dumping all lists -/

def readFaces (s : Spec) : Job Faces := do
  let letters ← lettersFor s (← readLetters)
  let kanji ← ofTilesetAt "Kanji" 0
  return ⟨letters, kanji⟩

theorem readFaces_ok_iff : (readFaces s).on w = (.ok faces, w') ↔
    ∃ letters, w' = w ∧ readLetters.on w = (.ok letters, w) ∧
      (lettersFor s letters).on w = (.ok faces.letters, w) ∧
      (ofTilesetAt "Kanji" 0).on w = (.ok faces.kanji, w) := by
  simp only [readFaces, on_bind_ok_iff, on_pure, Prod.mk.injEq, Except.ok.injEq]
  constructor
  · rintro ⟨letters, _, hletters, own, _, hown, kanji, _, hkanji, rfl, rfl⟩
    obtain rfl := Quiet.readLetters.eq hletters
    obtain rfl := (quiet_lettersFor _ _).eq hown
    obtain rfl := (Quiet.ofTilesetAt _ _).eq hkanji
    exact ⟨letters, rfl, hletters, hown, hkanji⟩
  · rintro ⟨letters, rfl, hletters, hown, hkanji⟩
    exact ⟨letters, _, hletters, _, _, hown, _, _, hkanji, rfl, rfl⟩

def sharedSource (f : Folders) : List Assembly.Line :=
  [.inclusion (Path.join f.built "ptrlist_data_constants_\x7bGAMEVERSION\x7d.asm"), .blank] ++
    allSpecs.flatMap sourceLines

theorem dump_ok_iff : (dump f).on w = (.ok (), w') ↔
    ∃ letters kanji key w₁ w₂, readLetters.on w = (.ok letters, w) ∧
      (ofTilesetAt "Kanji" 0).on w = (.ok kanji, w) ∧
      (create f.sharedPath).on w = (.ok key, w₁) ∧
      (allSpecs.forM (dumpList f ⟨letters, kanji⟩)).on w₁ = (.ok (), w₂) ∧
      (append key (Assembly.render (sharedSource f)).toUTF8).on w₂ = (.ok (), w') := by
  simp only [dump, on_bind_ok_iff]
  constructor
  · rintro ⟨letters, _, hletters, kanji, _, hkanji, key, w₁, hcreate, ⟨⟩, w₂, hlists, happend⟩
    obtain rfl := Quiet.readLetters.eq hletters
    obtain rfl := (Quiet.ofTilesetAt _ _).eq hkanji
    exact ⟨letters, kanji, key, w₁, w₂, hletters, hkanji, hcreate, hlists, happend⟩
  · rintro ⟨letters, kanji, key, w₁, w₂, hletters, hkanji, hcreate, hlists, happend⟩
    exact ⟨letters, w, hletters, kanji, w, hkanji, key, w₁, hcreate, (), w₂, hlists, happend⟩

theorem endsIn_sharedPath (f : Folders) : EndsIn (plainPath f.sharedPath) ".asm" :=
  endsIn_plainPath_join _ (show ".asm".toList <:+ "ptrlist_data.asm".toList by decide) (by decide)

theorem nodup_allSpecs : (allSpecs.map Spec.name).Nodup := by decide

/-- **What a dump leaves**: the text of every list, with the entries of both versions. -/
theorem of_dump (h : (dump f).on w = (.ok (), w')) (hs : s ∈ allSpecs) :
    ∃ faces first second, (readFaces s).on w = (.ok faces, w) ∧
      DumpedFrom w faces s .kabuto first ∧ DumpedFrom w faces s .kuwagata second ∧
      w'.read (listPath f s) =
        .ok (byteOrderMark.toString ++ textOfBoth s first second).toUTF8 := by
  obtain ⟨letters, kanji, key, w₁, w₂, hletters, hkanji, hcreate, hlists, happend⟩ :=
    dump_ok_iff.1 h
  obtain ⟨rfl, -, hcreated, -⟩ := of_create hcreate
  obtain ⟨-, hwritten⟩ := of_dumpLists (List.Subset.refl _) nodup_allSpecs hlists
  obtain ⟨⟨own, kanji⟩, first, second, hown, rfl, hfirst, hsecond, htext⟩ := hwritten s hs
  -- Making the source leaves all files alone that are read.
  have hback : SameBut IsWritten w₁ w :=
    hcreated.symm.of_eq ⟨_, by decide, endsIn_sharedPath f⟩
  refine ⟨⟨own, kanji⟩, first, second, ?_, hfirst.of_sameBut hback, hsecond.of_sameBut hback, ?_⟩
  · exact readFaces_ok_iff.2 ⟨letters, rfl, hletters, on_lettersFor_of_sameBut hback hown, hkanji⟩
  · refine (sameBut_of_append happend).read htext fun heq => ?_
    exact (heq ▸ endsIn_listPath f s).not_endsIn (by decide) (endsIn_sharedPath f)

theorem notMem_readFaces (h : (readFaces s).on w = (.ok faces, w')) :
    ∀ e ∈ faces.letters.entries ++ faces.kanji.entries, '\r' ∉ e.2.toList := by
  obtain ⟨letters, -, hletters, hown, hkanji⟩ := readFaces_ok_iff.1 h
  intro e he
  obtain he | he := mem_append.1 he
  · unfold lettersFor at hown
    split at hown
    · exact Dialog.notMem_of_ofTilesetAt hown e he
    · obtain rfl : letters = faces.letters := Except.ok.inj (congrArg Prod.fst hown)
      exact Dialog.notMem_of_readLetters hletters e he
  · exact Dialog.notMem_of_ofTilesetAt hkanji e he

theorem listedRows_of_dump (h : (dump f).on w = (.ok (), w')) (hs : s ∈ allSpecs) :
    ∃ faces first second text, (readFaces s).on w = (.ok faces, w) ∧
      DumpedFrom w faces s .kabuto first ∧ DumpedFrom w faces s .kuwagata second ∧
      (readMarkedText (listPath f s)).on w' = (.ok text, w') ∧
      listedRows text = rows first.entries second.entries := by
  obtain ⟨faces, first, second, hfaces, hfirst, hsecond, htext⟩ := of_dump h hs
  have hcr : '\r' ∈ ['\r', '\n'] := by decide
  have hlf : '\n' ∈ ['\r', '\n'] := by decide
  have hplain : '\r' ∉ (textOfBoth s first second).toList := by
    obtain ⟨image, -, hread⟩ := hfirst
    obtain ⟨image', -, hread'⟩ := hsecond
    refine notMem_textOf (notMem_columnLine hcr hs) fun row hrow => ?_
    exact notMem_rows hcr (notMem_entries (notMem_readFaces hfaces) hcr hread)
      (notMem_entries (notMem_readFaces hfaces) hcr hread') hrow
  refine ⟨faces, first, second, (textOfBoth s first second).toList, hfaces, hfirst, hsecond, ?_, ?_⟩
  · refine on_map_ok_iff.2 ⟨_, on_readText htext, ?_⟩
    have hmark : byteOrderMark.toString.toList = [byteOrderMark] := rfl
    rw [toList_append, hmark, singleton_append,
      unifyNewlines_cons_of_ne (by decide), unifyNewlines_of_notMem hplain,
      dropByteOrderMark, if_pos rfl]
  · exact listedRows_textOf (notMem_columnLine hlf hs) fun row => ne_nil_of_mem_rows

/-! ### Dumps that run to their end -/

/-- A workspace in which all files of a dump can be written. -/
structure Writable (f : Folders) (w : Workspace) : Prop where
  shared : ∃ key, w.target f.sharedPath = .ok key
  sources (v : Version) : ∃ key, w.target (sourcePath f v) = .ok key
  lists : ∀ s ∈ allSpecs, ∃ key, w.target (listPath f s) = .ok key

theorem Writable.of_sameBut {P : String → Prop} (hsame : SameBut P w w') (h : Writable f w) :
    Writable f w' where
  shared := h.shared.imp fun _ => hsame.target
  sources v := (h.sources v).imp fun _ => hsame.target
  lists s hs := (h.lists s hs).imp fun _ => hsame.target

/-- A list that can be read in both versions. -/
def Readable (w : Workspace) (default : Faces) (s : Spec) : Prop :=
  ∃ letters first second, (lettersFor s default.letters).on w = (.ok letters, w) ∧
    DumpedFrom w ⟨letters, default.kanji⟩ s .kabuto first ∧
    DumpedFrom w ⟨letters, default.kanji⟩ s .kuwagata second

theorem Readable.of_sameBut (hsame : SameBut IsWritten w w') (h : Readable w default s) :
    Readable w' default s := by
  obtain ⟨letters, first, second, hletters, hfirst, hsecond⟩ := h
  exact ⟨letters, first, second, on_lettersFor_of_sameBut hsame hletters,
    hfirst.of_sameBut hsame, hsecond.of_sameBut hsame⟩

theorem exists_on_dumpVersion (hw : Writable f w) (hd : DumpedFrom w faces s v d) :
    ∃ w', (dumpVersion f faces s v).on w = (.ok d, w') ∧ SameBut IsWritten w w' := by
  obtain ⟨key, hkey⟩ := hw.sources v
  obtain ⟨w', hwrite⟩ : ∃ w', (writeText (sourcePath f v)
      (Assembly.render [.inclusion f.sharedPath])).on w = (.ok (), w') :=
    ⟨_, on_writeFile_ok_iff.2 ⟨key, hkey, rfl⟩⟩
  have hsame : SameBut IsWritten w w' :=
    (sameBut_of_source hwrite).mono fun _ h => ⟨".asm", by decide, h⟩
  exact ⟨w', dumpVersion_ok_iff.2 ⟨hwrite, hd.of_sameBut hsame⟩, hsame⟩

theorem exists_on_dumpList (hw : Writable f w) (hs : s ∈ allSpecs) (h : Readable w default s) :
    ∃ w', (dumpList f default s).on w = (.ok (), w') := by
  obtain ⟨letters, first, second, hletters, hfirst, hsecond⟩ := h
  obtain ⟨key, hkey⟩ := hw.lists s hs
  have hcreate := on_create_ok_iff.2 ⟨hkey, rfl⟩
  obtain ⟨rfl, -, hcreated, -⟩ := of_create hcreate
  have hsame₁ := hcreated.of_eq (P := IsWritten) ⟨".txt", by decide, endsIn_listPath f s⟩
  obtain ⟨w₂, hon, hsame₂⟩ :=
    exists_on_dumpVersion (hw.of_sameBut hsame₁) (hfirst.of_sameBut hsame₁)
  have hsame := hsame₁.trans hsame₂
  obtain ⟨w₃, hon', -⟩ := exists_on_dumpVersion (hw.of_sameBut hsame) (hsecond.of_sameBut hsame)
  exact ⟨_, dumpList_ok_iff.2
    ⟨letters, _, _, w₂, w₃, first, second, hletters, hcreate, hon, hon', rfl⟩⟩

theorem exists_on_dumpLists {specs : List Spec} (hspecs : specs ⊆ allSpecs) (hw : Writable f w)
    (h : ∀ s ∈ specs, Readable w default s) :
    ∃ w', (specs.forM (dumpList f default)).on w = (.ok (), w') := by
  induction specs generalizing w with
  | nil => exact ⟨w, rfl⟩
  | cons s specs ih =>
    obtain ⟨hs, hspecs⟩ := cons_subset.1 hspecs
    obtain ⟨hfirst, hrest⟩ := forall_mem_cons.1 h
    obtain ⟨w₁, hon⟩ := exists_on_dumpList hw hs hfirst
    have hsame := (of_dumpList hon).1.mono fun _ => IsWrittenFor.isWritten
    obtain ⟨w', hon'⟩ := ih hspecs (hw.of_sameBut hsame) fun s hs => (hrest s hs).of_sameBut hsame
    exact ⟨w', on_bind_ok_iff.2 ⟨(), w₁, hon, hon'⟩⟩

/-- **A dump runs to its end** if its files can be written and every list can be read. -/
theorem exists_on_dump (hw : Writable f w)
    (hletters : readLetters.on w = (.ok default.letters, w))
    (hkanji : (ofTilesetAt "Kanji" 0).on w = (.ok default.kanji, w))
    (h : ∀ s ∈ allSpecs, Readable w default s) : ∃ w', (dump f).on w = (.ok (), w') := by
  obtain ⟨key, hkey⟩ := hw.shared
  have hcreate := on_create_ok_iff.2 ⟨hkey, rfl⟩
  obtain ⟨rfl, -, hcreated, -⟩ := of_create hcreate
  have hsame := hcreated.of_eq (P := IsWritten) ⟨".asm", by decide, endsIn_sharedPath f⟩
  obtain ⟨w₂, hlists⟩ := exists_on_dumpLists (List.Subset.refl _) (hw.of_sameBut hsame)
    fun s hs => (h s hs).of_sameBut hsame
  exact ⟨_, dump_ok_iff.2 ⟨_, _, _, _, w₂, hletters, hkanji, hcreate, hlists, rfl⟩⟩

end Cartridge.PointerList
