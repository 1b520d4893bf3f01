import Cartridge.Dialog.Build
import Cartridge.Dialog.Link
import Cartridge.Proofs.Bytes
import Cartridge.Proofs.Layout
import Cartridge.Proofs.Workspace
import Mathlib.Data.List.ReduceOption

/-!
# Dialog pointers

The texts of a sheet are built into a file of offsets and texts, and linking turns the offsets into
addresses.

Main result: `pointers_lead_to_texts`.
-/

open List

namespace Cartridge.Dialog

open Job Bytes Text Entry Layout

/-- The bytes that an entry adds to the texts: none if it shares a text or ends them. -/
def Entry.stored (t : Typeface) (e : Entry) : Except Fault (List UInt8) :=
  match e.content with
  | .shared _ | .final => .ok []
  | .text ended s => do
    let (bytes, code) ← (Script.encode t s).mapError (·.fault s)
    return bytes ++ (← ending ended s code)

/-- Where the pointer of an entry leads. -/
def Entry.target (e : Entry) : Target String :=
  match e.content with
  | .shared pointer => .shared pointer
  | .final | .text _ _ => .own

def Entry.item (e : Entry) (bytes : List UInt8) : Item String := ⟨e.pointer, e.target, bytes⟩

/-- The pointers of entries that are listed, in order. -/
def listedOf (es : List Entry) : List String :=
  ((es.map pointer).filter fun k => !k.startsWith "UNUSED").mergeSort
    fun a b => decide (a ≤ b)

/-- What a sheet says for a version, row by row. -/
def Sheet.entries (column version : String) (sheet : List (List String)) :
    Except Fault (List Entry) := do
  let header ← demand sheet.head? (.plain .noMember)
  let c ← Columns.find header column
  return (← (sheet.drop 1).mapM (select c version)).reduceOption

variable {t : Typeface} {l l' : Layout} {w w' : Workspace} {e : Entry} {es : List Entry}
  {bytes count table : List UInt8} {items : List (Item String)} {c : Sheet.Columns}
  {version : String} {rows : List (List String)}

/-! ### Laying out texts -/

def Entry.offsetIn (l : Layout) (e : Entry) : Option Nat :=
  match e.content with
  | .shared pointer => l.offsets.find? pointer
  | .final | .text _ _ => some l.text.size

theorem addEntry_ok_iff : (addEntry t l e).on w = (.ok l', w') ↔
    w' = w ∧ ∃ bytes offset, e.stored t = .ok bytes ∧ e.offsetIn l = some offset ∧
      l' = ⟨l.text ++ bytes.toArray, l.offsets.insert e.pointer offset,
        l.lengths.insert e.pointer bytes.length⟩ := by
  obtain ⟨pointer, content⟩ := e
  cases content with
  | shared other =>
    simp only [addEntry, on_bind_ok_iff, on_demand_ok_iff, on_pure,
      Prod.mk.injEq, Except.ok.injEq, stored, offsetIn, place]
    constructor
    · rintro ⟨offset, _, ⟨hfind, rfl⟩, rfl, rfl⟩
      exact ⟨rfl, [], offset, rfl, hfind, by simp⟩
    · rintro ⟨rfl, _, offset, rfl, hfind, rfl⟩
      exact ⟨offset, w', ⟨hfind, rfl⟩, by simp, rfl⟩
  | final =>
    simp only [addEntry, on_pure, Prod.mk.injEq, Except.ok.injEq, stored, offsetIn,
      place]
    constructor
    · rintro ⟨rfl, rfl⟩
      exact ⟨rfl, [], l.text.size, rfl, rfl, by simp⟩
    · rintro ⟨rfl, _, _, rfl, ⟨⟩, rfl⟩
      exact ⟨by simp, rfl⟩
  | text ended s =>
    simp only [addEntry, stored, offsetIn]
    cases hencode : Script.encode t s with
    | error flaw =>
      constructor
      · intro hadd
        obtain ⟨_, _, -, hthrow⟩ := on_bind_ok_iff.1 hadd
        cases hthrow
      · rintro ⟨-, _, _, hstored, -⟩
        cases hstored
    | ok encoded =>
      obtain ⟨bytes, code⟩ := encoded
      simp only [on_bind_ok_iff, on_lift, on_pure, Prod.mk.injEq, Except.ok.injEq,
        Except.mapError, bind_ok_iff, pure_ok_iff, add, place]
      constructor
      · rintro ⟨tail, _, ⟨htail, rfl⟩, rfl, rfl⟩
        exact ⟨rfl, bytes ++ tail, _, ⟨_, rfl, tail, htail, rfl⟩, rfl, rfl⟩
      · rintro ⟨rfl, _, _, ⟨_, rfl, tail, htail, rfl⟩, ⟨⟩, rfl⟩
        exact ⟨tail, w', ⟨htail, rfl⟩, rfl, rfl⟩

/-- A layout of items. -/
structure Layout.Lays (l : Layout) (items : List (Item String)) : Prop where
  text : l.text.toList = Item.stored items
  offsets : Recorded (fun n : Nat => (n : Int)) 0 items l.offsets

namespace Layout.Lays

theorem nil : Lays {} [] := ⟨rfl, .nil⟩

theorem add (h : l.Lays items) {item : Item String} {offset : Nat}
    (hspot : (Item.spotAfter 0 items item.target).map Spot.value = some (offset : Int))
    (htext : l'.text = l.text ++ item.bytes.toArray)
    (hoffsets : l'.offsets = l.offsets.insert item.key offset) : l'.Lays (items ++ [item]) := by
  constructor
  · simp [htext, h.text, Item.stored]
  · rw [hoffsets]
    exact h.offsets.concat hspot

theorem spotAfter_own (h : l.Lays items) :
    (Item.spotAfter 0 items .own).map Spot.value = some (l.text.size : Int) := by
  rw [← Array.length_toList, h.text, Item.spotAfter, Nat.zero_add]
  rfl

/-- **One entry.**  It is encoded and stored, and its pointer gets the place that it records. -/
theorem addEntry (h : l.Lays items) (hadd : (Dialog.addEntry t l e).on w = (.ok l', w')) :
    w' = w ∧ ∃ bytes, e.stored t = .ok bytes ∧ l'.Lays (items ++ [e.item bytes]) := by
  obtain ⟨rfl, bytes, offset, hbytes, hoffset, rfl⟩ := addEntry_ok_iff.1 hadd
  refine ⟨rfl, bytes, hbytes, h.add ?_ rfl rfl⟩
  obtain ⟨pointer, content⟩ := e
  cases content with
  | shared other =>
    have hfind : l.offsets.find? other = some offset := hoffset
    have hspot := h.offsets.find other
    rw [hfind] at hspot
    exact hspot.symm
  | final | text =>
    cases hoffset
    exact h.spotAfter_own

/-- **All rows.**  Every row can be selected, every text among them can be encoded, and the layout
goes on with them. -/
theorem addRows (h : l.Lays items)
    (hrows : (rows.foldlM (fun l row => do
      match ← lift (Sheet.select c version row) with
      | none => return l
      | some e => Dialog.addEntry t l e) l : Job Layout).on w = (.ok l', w')) :
    w' = w ∧ ∃ selected texts, rows.mapM (Sheet.select c version) = .ok selected ∧
      List.Forall₂ (fun e bytes => stored t e = .ok bytes) selected.reduceOption texts ∧
      l'.Lays (items ++ List.zipWith item selected.reduceOption texts) := by
  induction rows generalizing l items with
  | nil =>
    obtain ⟨rfl, rfl⟩ := hrows
    exact ⟨rfl, [], [], rfl, .nil, by simpa using h⟩
  | cons row rows ih =>
    simp only [foldlM_cons, on_bind_ok_iff, on_lift, Prod.mk.injEq] at hrows
    obtain ⟨l₁, w₁, ⟨choice, _, ⟨hselect, rfl⟩, hrow⟩, hrows⟩ := hrows
    cases choice with
    | none =>
      cases hrow
      obtain ⟨hw, selected, texts, hselected, htexts, hlays⟩ := ih h hrows
      refine ⟨hw, none :: selected, texts, ?_, htexts, hlays⟩
      exact mapM_ok_iff.2 (.cons hselect (mapM_ok_iff.1 hselected))
    | some e =>
      obtain ⟨rfl, bytes, hbytes, hlays₁⟩ := h.addEntry hrow
      obtain ⟨hw, selected, texts, hselected, htexts, hlays⟩ := ih hlays₁ hrows
      refine ⟨hw, some e :: selected, bytes :: texts, ?_, .cons hbytes htexts, ?_⟩
      · exact mapM_ok_iff.2 (.cons hselect (mapM_ok_iff.1 hselected))
      · simpa [reduceOption_cons_of_some] using hlays

end Layout.Lays

/-! ### The built file -/

theorem quiet_readTypeface (pointers portraits : String) :
    (readTypeface pointers portraits).Quiet :=
  .bind .readLettering fun _ => .bind (.bind (.readText _) fun _ => .lift _) fun _ =>
    .bind (.bind (.readText _) fun _ => .lift _) fun _ => .pure _

def fileOf (count table : List UInt8) (l : Layout) : ByteArray :=
  ⟨(count ++ table).toArray ++ l.text⟩

theorem build_ok_iff {output input pointers portraits column version : String} :
    (build output input pointers portraits column version).on w = (.ok (), w') ↔
      ∃ t s header c l spans table key count,
        (readTypeface pointers portraits).on w = (.ok t, w) ∧
        (readMarkedText input).on w = (.ok s, w) ∧
        (Csv.parse s).head? = some header ∧ Sheet.Columns.find header column = .ok c ∧
        (layOut t c version ((Csv.parse s).drop 1)).on w = (.ok l, w) ∧ l.spans = .ok spans ∧
        words (spans.flatMap fun s => [(s.1 : Int), (s.2 : Int)]) = .ok table ∧
        w.target output = .ok key ∧ word spans.length = .ok count ∧
        w' = { w with
          files := (w.files.insert key ByteArray.empty).modify key
            (· ++ fileOf count table l) } := by
  simp only [build, on_bind_ok_iff, on_demand_ok_iff, on_lift,
    on_create_ok_iff, append, on_modify, Prod.mk.injEq]
  constructor
  · rintro ⟨t, w₁, ht, s, w₂, hs, header, _, ⟨hheader, rfl⟩, c, _, ⟨hc, rfl⟩, l, w₃, hl, spans, _,
      ⟨hspans, rfl⟩, table, _, ⟨htable, rfl⟩, key, _, ⟨hkey, rfl⟩, count, _, ⟨hcount, rfl⟩, -, rfl⟩
    obtain rfl := (quiet_readTypeface _ _).eq ht
    obtain rfl := (Quiet.readMarkedText _).eq hs
    obtain ⟨rfl, -⟩ := Lays.nil.addRows hl
    exact ⟨t, s, header, c, l, spans, table, key, count, ht, hs, hheader, hc, hl, hspans, htable,
      hkey, hcount, rfl⟩
  · rintro ⟨t, s, header, c, l, spans, table, key, count, ht, hs, hheader, hc, hl, hspans, htable,
      hkey, hcount, rfl⟩
    exact ⟨t, w, ht, s, w, hs, header, _, ⟨hheader, rfl⟩, c, _, ⟨hc, rfl⟩, l, w, hl, spans, _,
      ⟨hspans, rfl⟩, table, _, ⟨htable, rfl⟩, key, _, ⟨hkey, rfl⟩, count, _, ⟨hcount, rfl⟩,
      trivial, rfl⟩

theorem toList_fileOf (count table : List UInt8) (l : Layout) :
    (fileOf count table l).data.toList = count ++ table ++ l.text.toList := by
  simp [fileOf]

/-- **Linking a built file.**  Every offset becomes an address behind the pointers, and the texts
follow as they are. -/
theorem exists_of_link {spans : List (Nat × Nat)} {place : Section} {final : ByteArray}
    (hcount : word spans.length = .ok count)
    (htable : words (spans.flatMap fun s => [(s.1 : Int), (s.2 : Int)]) = .ok table)
    (h : link (fileOf count table l) place = .ok final) :
    (∀ s ∈ spans, 0 ≤ addressIn place spans.length s.1 ∧
      addressIn place spans.length s.1 < 0x10000) ∧
    final.data.toList = (spans.flatMap fun s =>
      wordBytes (addressIn place spans.length s.1).toNat) ++ l.text.toList := by
  obtain ⟨⟨-, hfits⟩, hbytes⟩ := word_ok_iff.1 hcount
  rw [Int.toNat_natCast] at hbytes
  subst hbytes
  have hheld : Tileset.Holds (fileOf (wordBytes spans.length) table l) 0
      (wordBytes spans.length ++ table) := by
    rw [Tileset.Holds, toList_fileOf]
    exact List.prefix_append ..
  obtain ⟨hfirst, hsecond⟩ := Tileset.holds_append.1 hheld
  obtain ⟨ns, hns, hoffsets⟩ := Link.offsetsOf_wordsAt htable hsecond
  have hn : wordAt (fileOf (wordBytes spans.length) table l) 0 = .ok spans.length :=
    wordAt_of_holds (by omega) hfirst
  have hstop : 2 + 4 * spans.length = (wordBytes spans.length ++ table).length := by
    rw [length_append, Link.length_of_spans htable]
    rfl
  simp only [link, bind_ok_iff, pure_ok_iff] at h
  obtain ⟨n, hn', ns', hns', addresses, haddresses, rfl⟩ := h
  obtain rfl := Except.ok.inj (hn.symm.trans hn')
  obtain rfl := Except.ok.inj (hns.symm.trans hns')
  rw [hoffsets, map_map, words_ok_iff] at haddresses
  obtain ⟨hin, rfl⟩ := haddresses
  refine ⟨fun s hs => hin _ (mem_map_of_mem hs), ?_⟩
  rw [hstop, ByteArray.data_append, Array.toList_append, toList_rest (toList_fileOf ..),
    flatMap_map]
  rfl

theorem target_ne_fixed {texts : List (List UInt8)} :
    ∀ item ∈ List.zipWith Entry.item es texts, ∀ a, item.target ≠ .fixed a := by
  intro item hitem a
  obtain ⟨i, hi, rfl⟩ := mem_iff_getElem.1 hitem
  rw [getElem_zipWith, Entry.item, Entry.target]
  split <;> exact fun h => by cases h

theorem map_key_items {texts : List (List UInt8)} (hlength : es.length = texts.length) :
    (List.zipWith Entry.item es texts).map Item.key = es.map Entry.pointer :=
  Item.map_key_zipWith (fun _ _ => rfl) hlength

theorem Sheet.entries_eq {sheet : List (List String)} {header : List String} {column : String}
    {selected : List (Option Entry)} (hheader : sheet.head? = some header)
    (hc : Columns.find header column = .ok c)
    (hselected : (sheet.drop 1).mapM (select c version) = .ok selected) :
    entries column version sheet = .ok selected.reduceOption := by
  simp only [entries, bind_ok_iff, demand_ok_iff, pure_ok_iff]
  exact ⟨header, hheader, c, hc, selected, hselected, rfl⟩

/-- **Pointers lead to their texts.**  A finished file is the addresses of the listed pointers, in
order, and then the stored entries of the sheet; the address of a pointer is where its entry
begins. -/
theorem pointers_lead_to_texts {output input pointers portraits column version : String}
    (hbuild : (build output input pointers portraits column version).on w = (.ok (), w')) :
    ∃ t s es texts data,
      (readTypeface pointers portraits).on w = (.ok t, w) ∧
      (Job.readMarkedText input).on w = (.ok s, w) ∧
      Sheet.entries column version (Text.Csv.parse s) = .ok es ∧
      List.Forall₂ (fun e bytes => Entry.stored t e = .ok bytes) es texts ∧
      w'.read output = .ok data ∧
      ((es.map Entry.pointer).Nodup → ∀ place final, link data place = .ok final →
        ∃ addresses : List Int,
          (∀ a ∈ addresses, 0 ≤ a ∧ a < 0x10000) ∧
          final.data.toList =
            (addresses.flatMap fun a => Bytes.wordBytes a.toNat) ++ texts.flatten ∧
          List.Forall₂ (fun key a => ∃ start,
            Item.spotOf 0 (List.zipWith Entry.item es texts) key = some (.offset start) ∧
              a - place.base = 2 * (listedOf es).length + start) (listedOf es) addresses) := by
  obtain ⟨t, s, header, c, l, spans, table, key, count, ht, hs, hheader, hc, hl, hspans, htable,
    hkey, hcount, rfl⟩ := build_ok_iff.1 hbuild
  obtain ⟨-, selected, texts, hselected, htexts, hlays⟩ := Layout.Lays.nil.addRows hl
  rw [nil_append] at hlays
  refine ⟨t, s, selected.reduceOption, texts, fileOf count table l, ht, hs,
    Sheet.entries_eq hheader hc hselected, htexts, Workspace.read_fill hkey,
    fun hnodup place final hlink => ?_⟩
  obtain ⟨hin, hfinal⟩ := exists_of_link hcount htable hlink
  have hlength := htexts.length_eq
  have hkeys := map_key_items hlength
  have hlisted : l.listed = listedOf selected.reduceOption := by
    rw [Layout.listed, hlays.offsets.keys (hkeys ▸ hnodup), hkeys]
    rfl
  have hforall := Recorded.forall₂_of_spans hspans
  rw [hlisted] at hforall
  have hcountEq : (listedOf selected.reduceOption).length = spans.length := hforall.length_eq
  refine ⟨spans.map fun s => addressIn place spans.length s.1, ?_, ?_, ?_⟩
  · rintro a ha
    obtain ⟨s, hs, rfl⟩ := mem_map.1 ha
    exact hin s hs
  · rw [hfinal, hlays.text, Item.stored_zipWith (fun _ _ => rfl) hlength, flatMap_map]
  · rw [forall₂_map_right_iff]
    refine hforall.imp fun key s hfind => ?_
    obtain ⟨spot, hspot, hvalue⟩ := hlays.offsets.exists_spot hfind
    obtain ⟨start, rfl⟩ := Item.exists_offset_of_spotOf target_ne_fixed hspot
    refine ⟨start, hspot, ?_⟩
    simp only [Spot.value] at hvalue
    rw [addressIn]
    omega

/-! ### A small sheet -/

def sampleSheet : String :=
  "Index[#version],Pointer[#version|],Original\n000,0x4004,A\n001#b,0x4006,B\n002,UNUSED00,B\n" ++
    "003,0x4000,@0x4004\n004,0x4002,<FINAL>\n"

def sampleRows : List (List String) :=
  [["000", "0x4004", "A"], ["001#b", "0x4006", "B"], ["002", "UNUSED00", "B"],
    ["003", "0x4000", "@0x4004"], ["004", "0x4002", "<FINAL>"]]

def sampleEntries : List Entry :=
  [⟨"0x4004", .text true ['A']⟩, ⟨"UNUSED00", .text true ['B']⟩, ⟨"0x4000", .shared "0x4004"⟩,
    ⟨"0x4002", .final⟩]

def sampleTypeface : Typeface := ⟨⟨⟨[("A", 1), ("B", 2), (" ", 0)]⟩, ⟨[("k", 0)]⟩⟩, ∅, ∅⟩

def sampleLayout : Layout where
  text := #[1, 0xCC, 0, 2, 0xCC, 0]
  offsets := ⟨[("0x4004", 0), ("UNUSED00", 3), ("0x4000", 0), ("0x4002", 6)]⟩
  lengths := ⟨[("0x4004", 3), ("UNUSED00", 3), ("0x4000", 0), ("0x4002", 0)]⟩

def sample : Workspace where
  files := ⟨[("scripts/res/tilesets/MainDialog1.lst", "|01\nA\nB\n".toUTF8),
    ("scripts/res/tilesets/MainDialog2.lst", "".toUTF8),
    ("scripts/res/tilesets/Special.lst", "".toUTF8),
    ("scripts/res/tilesets/Kanji.lst", "k\n".toUTF8), ("names", "".toUTF8),
    ("sheet", sampleSheet.toUTF8)]⟩
  folders := ["", "scripts", "scripts/res", "scripts/res/tilesets"]

theorem listed_sampleLayout : sampleLayout.listed = ["0x4000", "0x4002", "0x4004"] := by
  have hlisted : sampleLayout.offsets.keys.filter (fun k => !k.startsWith "UNUSED") =
      ["0x4004", "0x4000", "0x4002"] := by decide +kernel
  rw [Layout.listed, hlisted]
  simp [List.mergeSort, List.MergeSort.Internal.splitInTwo]

theorem on_readMarkedText_sample : (readMarkedText "sheet").on sample =
    (.ok (dropByteOrderMark (unifyNewlines sampleSheet.toList)), sample) :=
  on_map_ok_iff.2 ⟨_, on_readText (Workspace.read_ok_iff.2 ⟨"sheet", by decide +kernel, rfl⟩), rfl⟩

theorem parse_sampleSheet :
    Csv.parse (dropByteOrderMark (unifyNewlines sampleSheet.toList)) =
      ["Index[#version]", "Pointer[#version|]", "Original"] :: sampleRows := by
  decide +kernel

def sampleFile : ByteArray := fileOf [3, 0] [0, 0, 0, 0, 6, 0, 0, 0, 0, 0, 3, 0] sampleLayout

def built : Workspace :=
  { sample with
    files := (sample.files.insert "out" ByteArray.empty).modify "out" (· ++ sampleFile) }

theorem on_build_sample :
    (build "out" "sheet" "names" "names" "Original" "a").on sample = (.ok (), built) := by
  have htypeface : ((readTypeface "names" "names").on sample).1 = .ok sampleTypeface := by
    decide +kernel
  have hlayout : ((layOut sampleTypeface ⟨0, 1, 2, some 2⟩ "a" sampleRows).on sample).1 =
      .ok sampleLayout := by decide +kernel
  have hspans : sampleLayout.spans = .ok [(0, 0), (6, 0), (0, 3)] := by
    rw [spans, listed_sampleLayout]
    decide +kernel
  refine build_ok_iff.2 ⟨sampleTypeface, dropByteOrderMark (unifyNewlines sampleSheet.toList),
    ["Index[#version]", "Pointer[#version|]", "Original"], ⟨0, 1, 2, some 2⟩, sampleLayout, [(0, 0),
    (6, 0), (0, 3)], [0, 0, 0, 0, 6, 0, 0, 0, 0, 0, 3, 0], "out", [3, 0],
    Prod.ext htypeface (quiet_readTypeface _ _ _), on_readMarkedText_sample, ?_, ?_, ?_, hspans, ?_,
    ?_, ?_, rfl⟩
  · rw [parse_sampleSheet]
    rfl
  · decide +kernel
  · rw [parse_sampleSheet]
    exact Prod.ext hlayout (Lays.nil.addRows (on_eq_of_fst hlayout)).1
  · decide +kernel
  · decide +kernel
  · decide +kernel

theorem eq_of_read_sample {s : List Char} {data : ByteArray}
    (hs : (readMarkedText "sheet").on sample = (.ok s, sample))
    (hes : Sheet.entries "Original" "a" (Csv.parse s) = .ok es)
    (hdata : built.read "out" = .ok data) : sampleEntries = es ∧ sampleFile = data := by
  obtain rfl := Except.ok.inj (congrArg Prod.fst (on_readMarkedText_sample.symm.trans hs))
  have hentries : Sheet.entries "Original" "a"
      (["Index[#version]", "Pointer[#version|]", "Original"] :: sampleRows) =
      .ok sampleEntries := by
    decide +kernel
  rw [parse_sampleSheet, hentries, Except.ok.injEq] at hes
  exact ⟨hes, Except.ok.inj ((Workspace.read_fill (by decide +kernel)).symm.trans hdata)⟩

theorem pointers_lead_to_texts_sample :
    ∃ (w' : Workspace) (data : ByteArray) (texts : List (List UInt8)) (addresses : List Int),
      (build "out" "sheet" "names" "names" "Original" "a").on sample = (.ok (), w') ∧
      w'.read "out" = .ok data ∧
      link data ⟨2, 0x4000⟩ = .ok ⟨#[6, 0x40, 0xC, 0x40, 6, 0x40, 1, 0xCC, 0, 2, 0xCC, 0]⟩ ∧
      [6, 0x40, 0xC, 0x40, 6, 0x40, 1, 0xCC, 0, 2, 0xCC, 0] =
        (addresses.flatMap fun a => Bytes.wordBytes a.toNat) ++ texts.flatten ∧
      List.Forall₂ (fun key (a : Int) => ∃ start,
        Item.spotOf 0 (List.zipWith Entry.item sampleEntries texts) key = some (.offset start) ∧
          a - 0x4000 = 2 * (listedOf sampleEntries).length + start)
        (listedOf sampleEntries) addresses := by
  obtain ⟨t, s, es, texts, data, -, hs, hes, -, hdata, hleads⟩ :=
    pointers_lead_to_texts on_build_sample
  obtain ⟨rfl, rfl⟩ := eq_of_read_sample hs hes hdata
  have hlink : link sampleFile ⟨2, 0x4000⟩ =
      .ok ⟨#[6, 0x40, 0xC, 0x40, 6, 0x40, 1, 0xCC, 0, 2, 0xCC, 0]⟩ := by decide +kernel
  obtain ⟨addresses, -, hfinal, haddresses⟩ := hleads (by decide) _ _ hlink
  exact ⟨_, _, texts, addresses, on_build_sample, hdata, hlink, hfinal, haddresses⟩

end Cartridge.Dialog
