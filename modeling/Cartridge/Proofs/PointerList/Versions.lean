import Cartridge.Proofs.PointerList.Written

/-!
# Differences between versions

The text of a list has one row for an entry that is the same in both versions, and a row for each
version of any other entry.  Entries count as the same if their fields are the same text when
written one after the other.

Main result: `versions_kept_iff`.
-/

open List

namespace Cartridge.PointerList

open Bytes Table Workspace Version
open Tileset (Holds holds_append holds_toByteArray)
open Workspace (SameBut EndsIn)

variable {first second : List (List String)} {i j : Nat}

/-! ### Rows by index -/

def versionOf? (i : Nat) (key : String) : Option (Option String) :=
  match Text.parts '#' key with
  | [index] => if index = toString i then some none else none
  | [index, version] => if index = toString i then some (some version) else none
  | _ => none

/-- The rows of an index, each with the version that it is for. -/
def rowsFor (rs : List (List String)) (i : Nat) : List (Option String × List String) :=
  rs.filterMap fun row => row.head?.bind fun key => (versionOf? i key).map (·, row.tail)

/-- The rows that an index should have: one for both versions if they agree, and otherwise one for
each version that has the entry. -/
def wantedRows (first second : Option (List String)) : List (Option String × List String) :=
  if first = second then first.toList.map (none, ·)
  else first.toList.map (some kabuto.name, ·) ++
    second.toList.map (some kuwagata.name, ·)

/-- Every index has the rows that it should have. -/
def KeepsVersions (rs first second : List (List String)) : Prop :=
  ∀ i, rowsFor rs i = wantedRows first[i]? second[i]?

theorem notMem_index (i : Nat) : '#' ∉ (toString i).toList := fun hmem =>
  Text.Numeral.forall_mem_toString (p := (· ≠ '#')) (by decide) i _ hmem rfl

theorem versionOf?_index (i j : Nat) :
    versionOf? i (toString j) = if j = i then some none else none := by
  rw [versionOf?, Text.parts_of_notMem (notMem_index j)]
  simp only [Nat.toString_eq_repr, Nat.repr_inj]

theorem versionOf?_version (i j : Nat) (v : Version) :
    versionOf? i (toString j ++ "#" ++ v.name) = if j = i then some (some v.name) else none := by
  have hname : '#' ∉ v.name.toList := by
    cases v with
    | kabuto | kuwagata => decide
  rw [versionOf?, Text.parts_append rfl (notMem_index j), Text.parts_of_notMem hname]
  simp only [Nat.toString_eq_repr, Nat.repr_inj]

theorem rowsFor_singleton (key : String) (columns : List String) (i : Nat) :
    rowsFor [key :: columns] i = ((versionOf? i key).map (·, columns)).toList := by
  cases hkey : versionOf? i key with
  | none | some version => simp [rowsFor, hkey]

theorem rowsFor_index (i j : Nat) (columns : List String) :
    rowsFor [toString j :: columns] i = if j = i then [(none, columns)] else [] := by
  rw [rowsFor_singleton, versionOf?_index]
  split_ifs <;> rfl

theorem rowsFor_version (i j : Nat) (v : Version) (columns : List String) :
    rowsFor [(toString j ++ "#" ++ v.name) :: columns] i =
      if j = i then [(some v.name, columns)] else [] := by
  rw [rowsFor_singleton, versionOf?_version]
  split_ifs <;> rfl

def shownRows : Option (List String) → Option (List String) → List (Option String × List String)
  | some a, some b =>
    if String.join a = String.join b then [(none, a)]
    else [(some kabuto.name, a), (some kuwagata.name, b)]
  | some a, none => [(some kabuto.name, a)]
  | none, some b => [(some kuwagata.name, b)]
  | none, none => []

theorem rowsFor_entryRows (i j : Nat) (a b : Option (List String)) :
    rowsFor (entryRows j a b) i = if j = i then shownRows a b else [] := by
  have hpair : ∀ row row' : List String,
      rowsFor [row, row'] i = rowsFor [row] i ++ rowsFor [row'] i :=
    fun row row' => filterMap_append (l := [row])
  cases a with
  | none =>
    cases b with
    | none => exact (ite_self _).symm
    | some b => exact rowsFor_version i j .kuwagata b
  | some a =>
    cases b with
    | none => exact rowsFor_version i j .kabuto a
    | some b =>
      by_cases hjoin : String.join a = String.join b
      · rw [entryRows, if_pos hjoin, rowsFor_index, shownRows, if_pos hjoin]
      · rw [entryRows, if_neg hjoin, hpair, rowsFor_version, rowsFor_version, shownRows]
        split_ifs <;> rfl

theorem flatMap_range_ite {α : Type} (shown : Nat → List α) (i n : Nat) :
    ((List.range n).flatMap fun j => if j = i then shown j else []) =
      if i < n then shown i else [] := by
  induction n with
  | zero => rfl
  | succ n ih =>
    rw [range_succ, flatMap_append, ih]
    by_cases hlast : n = i
    · subst hlast
      simp
    · have hiff : i < n + 1 ↔ i < n := by omega
      simp [hlast, hiff]

/-- **The rows of an index** are those that are written for its entry. -/
theorem rowsFor_rows (first second : List (List String)) (i : Nat) :
    rowsFor (rows first second) i = shownRows first[i]? second[i]? := by
  have hsplit : rowsFor (rows first second) i =
      (List.range (max first.length second.length)).flatMap fun j =>
        if j = i then shownRows first[j]? second[j]? else [] := by
    rw [rowsFor, rows, filterMap_flatMap]
    exact flatMap_congr fun j _ => rowsFor_entryRows i j _ _
  rw [hsplit, flatMap_range_ite]
  split_ifs with hlt
  · rfl
  · rw [getElem?_eq_none (by omega), getElem?_eq_none (by omega)]
    rfl

theorem shownRows_eq_wantedRows_iff {a b : Option (List String)} :
    shownRows a b = wantedRows a b ↔
      ∀ c d, a = some c → b = some d → String.join c = String.join d → c = d := by
  cases a with
  | none =>
    cases b with
    | none => simp [shownRows, wantedRows]
    | some d => simp [shownRows, wantedRows]
  | some c =>
    cases b with
    | none => simp [shownRows, wantedRows]
    | some d =>
      by_cases hsame : c = d
      · subst hsame
        simp [shownRows, wantedRows]
      · simp [shownRows, wantedRows, hsame]

/-- **When differences are kept**: no index has the same text with other fields in both versions. -/
theorem keepsVersions_rows_iff : KeepsVersions (rows first second) first second ↔
    ∀ (i : Nat) (a b : List String), first[i]? = some a → second[i]? = some b →
      String.join a = String.join b → a = b :=
  forall_congr' fun i => by rw [rowsFor_rows, shownRows_eq_wantedRows_iff]

/-! ### A list of one part -/

section Sample

variable {image : ByteArray} {pos start last before n : Nat} {l p q r : List UInt8}
  {faces : Faces} {s : Spec} {spec : FieldSpec} {a b c letter : String} {part : List UInt8}
  {d : Dumped}

theorem wordAt_of_zeros (h : Holds image start (List.replicate n 0)) (hpos : start ≤ pos)
    (hend : pos + 2 ≤ start + n) : wordAt image pos = .ok 0 := by
  obtain ⟨k, rfl⟩ := Nat.exists_eq_add_of_le hpos
  obtain ⟨m, rfl⟩ : ∃ m, n = k + (2 + m) := ⟨n - k - 2, by omega⟩
  rw [← replicate_append_replicate, ← replicate_append_replicate, holds_append,
    holds_append, length_replicate] at h
  exact wordAt_of_holds (by omega) h.2.1

theorem readStored_of_empty {size : Option Nat} {slots : List Slot.Stored}
    (h : wordAt image pos = .ok n) (count : Nat) :
    readStored image size n pos count slots = .ok slots := by
  cases count with
  | zero => rfl
  | succ count =>
    rw [readStored, h]
    exact if_pos rfl

theorem exists_read_of_blank (hstart : position s.address.flat = .ok start)
    (hlast : position (Address.flat ⟨s.address.bank, -2⟩) = .ok last)
    (hbefore : position ((last : Int) - 2) = .ok before)
    (h : ∀ pos ∈ [start, last, before], wordAt image pos = .ok 0) :
    ∃ d, Dumped.read image faces s = .ok d := by
  simp only [forall_mem_cons, not_mem_nil, false_implies, implies_true, and_true] at h
  obtain ⟨hfirst, hend, hprevious⟩ := h
  have hempty : readEmpty image last = .ok ((0 : Nat) : Int) := by
    simp only [readEmpty, bind_ok_iff]
    exact ⟨0, hend, before, hbefore, 0, hprevious, rfl⟩
  simp only [Dumped.read, readSlots, bind_ok_iff, pure_ok_iff]
  exact ⟨_, _, ⟨start, hstart, 0, hfirst, last, hlast, _, hempty, [],
    readStored_of_empty hfirst _, rfl⟩, [], rfl, rfl⟩

def partsHead : Spec where
  name := "PartsHead"
  address := ⟨0x23, 0x4671⟩
  labels := partLabels
  fields := partFields

theorem partsHead_mem : partsHead ∈ allSpecs := mem_cons_of_mem _ mem_cons_self

structure HoldsHead (image : ByteArray) (part : List UInt8) : Prop where
  before : Holds image 0 (List.replicate 0x8C671 0)
  table : Holds image 0x8C671 (wordBytes 0x4673)
  entry : Holds image 0x8C673 part
  after : Holds image 0x8C684 (List.replicate 0x10000 0)

def headImage (part : List UInt8) : ByteArray :=
  (List.replicate 0x8C671 0 ++ (wordBytes 0x4673 ++ (part ++ List.replicate 0x10000 0))).toByteArray

theorem holdsHead (hpart : part.length = 17) : HoldsHead (headImage part) part := by
  have h := holds_toByteArray (List.replicate 0x8C671 0 ++ (wordBytes 0x4673 ++
    (part ++ List.replicate 0x10000 0)))
  rw [holds_append, holds_append, holds_append, length_replicate, hpart] at h
  exact ⟨h.1, h.2.1, h.2.2.1, h.2.2.2⟩

theorem HoldsHead.exists_read (h : HoldsHead image part) (hs : s ∈ allSpecs)
    (hne : s.name ≠ partsHead.name) : ∃ d, Dumped.read image faces s = .ok d := by
  have hplaces : ∀ s ∈ allSpecs, s.name ≠ partsHead.name →
      let start := s.address.flat.toNat
      let last := (Address.flat ⟨s.address.bank, -2⟩).toNat
      position s.address.flat = .ok start ∧
        position (Address.flat ⟨s.address.bank, -2⟩) = .ok last ∧
        position ((last : Int) - 2) = .ok (last - 2) ∧
        ∀ pos ∈ [start, last, last - 2],
          pos + 2 ≤ 0x8C671 ∨ 0x8C684 ≤ pos ∧ pos + 2 ≤ 0x8C684 + 0x10000 := by decide
  -- What is read of a blank list lies clear of the head.
  obtain ⟨hstart, hlast, hbefore, hblank⟩ := hplaces s hs hne
  refine exists_read_of_blank hstart hlast hbefore fun pos hpos => ?_
  obtain hend | ⟨hpos, hend⟩ := hblank pos hpos
  · exact wordAt_of_zeros h.before (Nat.zero_le _) (by omega)
  · exact wordAt_of_zeros h.after hpos hend

theorem readSlots_head (h : HoldsHead image part) :
    readSlots image partsHead = .ok ⟨1, -1, [.entry 0x4673]⟩ := by
  have hfirst : wordAt image 0x8C671 = .ok 0x4673 :=
    wordAt_of_holds (by decide) h.table
  -- The table has one pointer, and what stands in front of it is another one, so it is not empty.
  have hprevious : wordAt image 0x8C66F = .ok 0 :=
    wordAt_of_zeros h.before (by decide) (by decide)
  have hempty : readEmpty image 0x8C671 = .ok (-1) := by
    simp only [readEmpty, bind_ok_iff]
    exact ⟨_, hfirst, 0x8C66F, rfl, 0, hprevious, rfl⟩
  have hstored : readStored image partsHead.entrySize? (-1) 0x8C671 1 [] = .ok [.entry 0x4673] := by
    rw [readStored, hfirst]
    rfl
  simp only [readSlots, bind_ok_iff, pure_ok_iff]
  exact ⟨0x8C671, rfl, _, hfirst, 0x8C671, rfl, _, hempty, _, hstored, rfl⟩

theorem readCodes_of_holds (hsize : spec.size = some l.length) (h : Holds image pos l) :
    readCodes image spec pos = .ok (l.map UInt8.toNat, pos + l.length) := by
  simp only [readCodes, hsize, bind_ok_iff, pure_ok_iff]
  exact ⟨_, bytesAt_of_holds h, rfl⟩

def headDumped (fields : List String) : Dumped := ⟨⟨1, -1, [.entry 0x4673]⟩, [fields]⟩

theorem read_head (hp : p.length = 7) (hq : q.length = 9) (hr : r.length = 1)
    (ha : showField faces (.fixedText 7) (p.map UInt8.toNat) = .ok a)
    (hb : showField faces (.fixedText 9) (q.map UInt8.toNat) = .ok b)
    (hc : showField faces (.numbers 1) (r.map UInt8.toNat) = .ok c) :
    Dumped.read (headImage (p ++ (q ++ r))) faces partsHead = .ok (headDumped [a, b, c]) := by
  have h : HoldsHead (headImage (p ++ (q ++ r))) (p ++ (q ++ r)) :=
    holdsHead (by simp [hp, hq, hr])
  have hheld := h.entry
  rw [holds_append, holds_append] at hheld
  have hfields : readFields (headImage (p ++ (q ++ r))) faces none 0x8C673 partFields =
      .ok [a, b, c] := by
    refine readFields_cons_ok_iff.2
      ⟨_, _, a, _, readCodes_of_holds (congrArg some hp.symm) hheld.1, ha, rfl, ?_⟩
    refine readFields_cons_ok_iff.2
      ⟨_, _, b, _, readCodes_of_holds (congrArg some hq.symm) hheld.2.1, hb, rfl, ?_⟩
    exact readFields_cons_ok_iff.2
      ⟨_, _, c, _, readCodes_of_holds (congrArg some hr.symm) hheld.2.2, hc, rfl, rfl⟩
  have hentry : readEntry (headImage (p ++ (q ++ r))) faces partsHead (.entry 0x4673) =
      .ok [a, b, c] := by
    simp only [readEntry, bind_ok_iff]
    exact ⟨0x8C673, rfl, hfields⟩
  simp only [Dumped.read, readSlots_head h, bind_ok_iff, pure_ok_iff]
  exact ⟨_, rfl, _, by rw [mapM_cons, hentry]; rfl, rfl⟩

def letterFiles (letter : String) : Workspace where
  files := ⟨[("scripts/res/tilesets/MainDialog1.lst", ("|01\nA\n" ++ letter ++ "\n").toUTF8),
    ("scripts/res/tilesets/MainDialog2.lst", "".toUTF8),
    ("scripts/res/tilesets/Special.lst", "".toUTF8),
    ("scripts/res/tilesets/Kanji.lst", "漢\n".toUTF8),
    ("scripts/res/tilesets/Credits.lst", "X\n".toUTF8)]⟩
  folders := ["", "src", "src/kabuto", "src/kuwagata", "txt", "scripts", "scripts/res",
    "scripts/res/tilesets"]

def headFaces (letter : String) : Faces :=
  ⟨⟨[(1, "A"), (2, letter), (0, " ")]⟩, ⟨[(0, "漢")]⟩⟩

def endHead : List UInt8 := [1, 1, 1, 1, 1, 1, 2] ++ ([1, 1, 1, 1, 1, 1, 1, 1, 1] ++ [0])

def startHead : List UInt8 := [1, 1, 1, 1, 1, 1, 1] ++ ([2, 1, 1, 1, 1, 1, 1, 1, 1] ++ [0])

def headFiles (letter : String) : Workspace :=
  { letterFiles letter with
    files := ((letterFiles letter).files.insert "baserom_kabuto.gbc" (headImage endHead)).insert
      "baserom_kuwagata.gbc" (headImage startHead) }

def headFolders : Folders := ⟨"src", "txt", "build"⟩

theorem read_letterFiles : ∀ letter ∈ ["B", "AA"],
    (Lettering.readLetters.on (letterFiles letter)).1 = .ok (headFaces letter).letters ∧
      ((Charset.ofTilesetAt "Kanji" 0).on (letterFiles letter)).1 = .ok (headFaces letter).kanji ∧
      ((Charset.ofTilesetAt "Credits" 0).on (letterFiles letter)).1 = .ok ⟨[(0, "X")]⟩ := by
  decide +kernel

theorem writable_letterFiles : Writable headFolders (letterFiles "") where
  shared := ⟨"src/ptrlist_data.asm", by decide +kernel⟩
  sources v := by
    cases v with
    | kabuto => exact ⟨"src/kabuto/ptrlist_data.asm", by decide +kernel⟩
    | kuwagata => exact ⟨"src/kuwagata/ptrlist_data.asm", by decide +kernel⟩
  lists := by
    have hlists : ∀ s ∈ allSpecs, (letterFiles "").target (listPath headFolders s) =
        .ok ("txt/" ++ s.name ++ ".txt") := by decide +kernel
    exact fun s hs => ⟨_, hlists s hs⟩

theorem sameBut_headFiles (letter : String) :
    SameBut (EndsIn · ".gbc") (letterFiles letter) (headFiles letter) := by
  refine ⟨rfl, fun key hkey => ?_⟩
  have hkabuto : key ≠ "baserom_kabuto.gbc" := by
    rintro rfl
    exact hkey (show ".gbc".toList <:+ "baserom_kabuto.gbc".toList by decide)
  have hkuwagata : key ≠ "baserom_kuwagata.gbc" := by
    rintro rfl
    exact hkey (show ".gbc".toList <:+ "baserom_kuwagata.gbc".toList by decide)
  exact (find?_insert_of_ne _ hkuwagata _).trans (find?_insert_of_ne _ hkabuto _)

theorem not_image_tileset (name : String) :
    ¬EndsIn (plainPath ("scripts/res/tilesets/" ++ name ++ ".lst")) ".gbc" :=
  (endsIn_plainPath (endsIn_append ..) (by decide)).not_endsIn (by decide)

theorem dumpedFrom_kabuto (h : Dumped.read (headImage endHead) faces s = .ok d) :
    DumpedFrom (headFiles letter) faces s .kabuto d := by
  have htarget : (letterFiles "").target Version.kabuto.image = .ok "baserom_kabuto.gbc" := by
    decide +kernel
  refine ⟨_, read_ok_iff.2 ⟨_, target_of_folders rfl htarget, ?_⟩, h⟩
  exact (find?_insert_of_ne _ (by decide) _).trans (find?_insert_self ..)

theorem dumpedFrom_kuwagata (h : Dumped.read (headImage startHead) faces s = .ok d) :
    DumpedFrom (headFiles letter) faces s .kuwagata d := by
  have htarget : (letterFiles "").target Version.kuwagata.image = .ok "baserom_kuwagata.gbc" := by
    decide +kernel
  exact ⟨_, read_ok_iff.2 ⟨_, target_of_folders rfl htarget,
    find?_insert_self ..⟩, h⟩

section

variable (hletter : letter ∈ ["B", "AA"])

include hletter

theorem on_readLetters_head :
    Lettering.readLetters.on (headFiles letter) =
      (.ok (headFaces letter).letters, headFiles letter) :=
  Job.on_readLetters_of_sameBut (sameBut_headFiles letter) not_image_tileset
    (Prod.ext (read_letterFiles _ hletter).1 (Job.Quiet.readLetters _))

theorem on_kanji_head :
    (Charset.ofTilesetAt "Kanji" 0).on (headFiles letter) =
      (.ok (headFaces letter).kanji, headFiles letter) :=
  Job.on_ofTilesetAt_of_sameBut (sameBut_headFiles letter) (not_image_tileset _)
    (Prod.ext (read_letterFiles _ hletter).2.1 (Job.Quiet.ofTilesetAt _ _ _))

theorem on_readFaces_head :
    (readFaces partsHead).on (headFiles letter) = (.ok (headFaces letter), headFiles letter) :=
  readFaces_ok_iff.2 ⟨_, rfl, on_readLetters_head hletter, rfl, on_kanji_head hletter⟩

theorem exists_on_lettersFor_head (hs : s ∈ allSpecs) (default : Charset) :
    ∃ letters, (lettersFor s default).on (headFiles letter) = (.ok letters, headFiles letter) := by
  have htileset : ∀ s ∈ allSpecs, s.tileset = none ∨ s.tileset = some "Credits" := by decide
  unfold lettersFor
  obtain hnone | hcredits := htileset s hs
  · rw [hnone]
    exact ⟨default, rfl⟩
  · rw [hcredits]
    exact ⟨_, Job.on_ofTilesetAt_of_sameBut (sameBut_headFiles letter) (not_image_tileset _)
      (Prod.ext (read_letterFiles _ hletter).2.2 (Job.Quiet.ofTilesetAt _ _ _))⟩

theorem dumpedFrom_heads :
    DumpedFrom (headFiles letter) (headFaces letter) partsHead .kabuto
        (headDumped ["AAAAAA" ++ letter, "AAAAAAAAA", "\\x00"]) ∧
      DumpedFrom (headFiles letter) (headFaces letter) partsHead .kuwagata
        (headDumped ["AAAAAAA", letter ++ "AAAAAAAA", "\\x00"]) := by
  have hshown : ∀ letter ∈ ["B", "AA"],
      showField (headFaces letter) (.fixedText 7) [1, 1, 1, 1, 1, 1, 2] =
          .ok ("AAAAAA" ++ letter) ∧
        showField (headFaces letter) (.fixedText 9) [2, 1, 1, 1, 1, 1, 1, 1, 1] =
          .ok (letter ++ "AAAAAAAA") := by decide
  obtain ⟨hend, hstart⟩ := hshown letter hletter
  exact ⟨dumpedFrom_kabuto (read_head rfl rfl rfl hend rfl rfl),
    dumpedFrom_kuwagata (read_head rfl rfl rfl rfl hstart rfl)⟩

theorem exists_on_dump_heads : ∃ w', (dump headFolders).on (headFiles letter) = (.ok (), w') := by
  have hfolders : SameBut (fun _ => True) (letterFiles "") (headFiles letter) :=
    ⟨rfl, fun _ hkey => absurd trivial hkey⟩
  refine exists_on_dump (writable_letterFiles.of_sameBut hfolders) (on_readLetters_head hletter)
    (on_kanji_head hletter) fun s hs => ?_
  by_cases hname : s.name = partsHead.name
  · obtain rfl := inj_on_of_nodup_map nodup_allSpecs hs partsHead_mem hname
    obtain ⟨hfirst, hsecond⟩ := dumpedFrom_heads hletter
    exact ⟨_, _, _, rfl, hfirst, hsecond⟩
  · obtain ⟨letters, hletters⟩ := exists_on_lettersFor_head hletter hs (headFaces letter).letters
    have hblank : ∀ part : List UInt8, part.length = 17 → ∃ d, Dumped.read (headImage part)
        ⟨letters, (headFaces letter).kanji⟩ s = .ok d :=
      fun part hpart => (holdsHead hpart).exists_read hs hname
    obtain ⟨d, hd⟩ := hblank endHead rfl
    obtain ⟨d', hd'⟩ := hblank startHead rfl
    exact ⟨letters, d, d', hletters, dumpedFrom_kabuto hd, dumpedFrom_kuwagata hd'⟩

end

end Sample

/-! ### Differences in the files -/

end Cartridge.PointerList
