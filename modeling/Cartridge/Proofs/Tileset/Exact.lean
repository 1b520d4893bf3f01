import Cartridge.Proofs.Text.Numeral
import Cartridge.Proofs.Tileset.Index
import Cartridge.Proofs.Tileset.Stored

/-!
# Tilesets rebuilt exactly

A version is rebuilt from its source, which takes in the stored tilesets by their names.  The
rebuilt tileset of an entry should be, byte by byte, what the image has there.  This is not always
so, as the dump takes tilesets for the same if their *tiles* are, while there are many ways to store
the same tiles:

* a tileset with the same tiles in both versions has one file for both;
* tilesets with the same tiles that one version has alone have one file;
* an entry that owns a tileset in neither version is named after the one that it leads to in the
  first version, whatever it leads to in the second.

There is no other reason (`exact_iff_faithful`).  New names never get into each other's way
(`Dump.Of.apart`); of names that are given in a file the same is asked by `Dump.Apart`.
-/

open List

namespace Cartridge.Tileset

open Text.Numeral Except Survey.Sound
open Assembly (forVersion filesAt)
open Assembly (Line quoted)

namespace Dump

variable {d : Dump} {images : Version → ByteArray} {entries : Version → List Listing}
  {v v' : Version} {key o i key' : Nat} {w w' : Workspace} {stem file name stem' : String}
  {bytes bytes' : ByteArray} {table : List String} {lines : Version → List Line}

/-! ### Rebuilt tilesets -/

/-- In the source `lines` of a version one file stands at a name, and it was stored with the given
bytes.  The source names a file by the folder that it is built in; its stored form has the same
name. -/
def Rebuilt (d : Dump) (w : Workspace) (v : Version) (lines : List Line) (name : String)
    (bytes : ByteArray) : Prop :=
  ∃ stem : String, '/' ∉ stem.toList ∧ filesAt name lines = [d.storedPath stem] ∧
    w.read (Path.join d.folders.stored (forVersion v stem ++ ".malias")) = .ok bytes

theorem storedPath_inj (h : '/' ∉ stem.toList) (h' : '/' ∉ stem'.toList)
    (heq : d.storedPath stem = d.storedPath stem') : stem = stem' := by
  rw [storedPath, storedPath, quoted, quoted, String.append_left_inj,
    String.append_right_inj] at heq
  have hname := Workspace.plainPath_join_inj (.append h (by decide)) (.append h' (by decide))
    (congrArg Workspace.plainPath heq)
  exact (String.append_left_inj _).1 hname

namespace Rebuilt

variable {lines : List Line}

theorem read (h : d.Rebuilt w v lines name bytes) (hfile : '/' ∉ file.toList)
    (hfiles : filesAt name lines = [d.storedPath file]) :
    w.read (Path.join d.folders.stored (forVersion v file ++ ".malias")) = .ok bytes := by
  obtain ⟨stem, hstem, hstems, hread⟩ := h
  rw [hfiles, List.cons.injEq] at hstems
  rwa [storedPath_inj hfile hstem hstems.1]

theorem unique (h : d.Rebuilt w v lines name bytes) (h' : d.Rebuilt w v lines name bytes') :
    bytes = bytes' := by
  obtain ⟨stem, hstem, hstems, hread⟩ := h
  exact ok.inj (hread.symm.trans (h'.read hstem hstems))

theorem ne_nil (h : d.Rebuilt w v lines name bytes) : filesAt name lines ≠ [] := by
  obtain ⟨stem, -, hstems, -⟩ := h
  rw [hstems]
  exact cons_ne_nil _ _

end Rebuilt

/-- Every entry of every version that is not empty has at its name, in the version's source, the
bytes that its tiles are read from in the version's image. -/
def Exact (d : Dump) (w w' : Workspace) (table : List String)
    (lines : Version → List Line) : Prop :=
  ∀ (v : Version) (image : ByteArray) (ls : List Listing), w.read v.image = .ok image →
    readListings image = .ok ls → ∀ (i : Nat) (l : Listing), ls[i]? = some l →
      l.position ≠ emptyPosition → ∃ name tiles, table[i]? = some name ∧
        readAt image l.position = .ok tiles ∧ d.Rebuilt w' v (lines v) name tiles.stored

/-- Every entry has at its name the tileset that it leads to, in terms of the surveys. -/
def Restored (d : Dump) (w : Workspace) (table : List String)
    (lines : Version → List Line) : Prop :=
  ∀ v i bytes, (d.survey v).stored? (keyOf i) = some bytes →
    ∃ name, table[i]? = some name ∧ d.Rebuilt w v (lines v) name bytes

/-- The tilesets that share a file or a name are stored alike. -/
structure Faithful (d : Dump) : Prop where
  /-- A tileset with the same tiles in both versions is stored alike. -/
  paired : ∀ key a b, d.first.found.find? key = some a → d.second.found.find? key = some b →
    a.tiles.data = b.tiles.data → a.tiles.stored = b.tiles.stored
  /-- Tilesets with the same tiles that one version has alone are stored alike. -/
  lone : ∀ v v' key key' a b, Lone d.first.found d.second.found key →
    Lone d.first.found d.second.found key' → (d.survey v).found.find? key = some a →
    (d.survey v').found.find? key' = some b → a.tiles.data = b.tiles.data →
      a.tiles.stored = b.tiles.stored
  /-- A key without a tileset leads, in the second version, to one that is stored as that of the key
  which it is named after. -/
  nameless : ∀ key bytes, d.first.found.find? key = none → d.second.found.find? key = none →
    d.second.stored? key = some bytes →
      ∃ o, d.first.owner? key = some o ∧ d.second.stored? o = some bytes

theorem Faithful.stored_eq (hd : d.Faithful) {a b : Found}
    (ha : (d.survey v).found.find? key = some a) (hb : (d.survey v').found.find? key = some b)
    (hdata : a.tiles.data = b.tiles.data) : a.tiles.stored = b.tiles.stored := by
  cases v <;> cases v'
  · rw [Option.some.inj (ha.symm.trans hb)]
  · exact hd.paired key a b ha hb hdata
  · exact (hd.paired key b a hb ha hdata.symm).symm
  · rw [Option.some.inj (ha.symm.trans hb)]

theorem exact_iff_restored (hs : d.Sound images entries)
    (himages : ∀ v : Version, w.read v.image = .ok (images v))
    (hentries : ∀ v, readListings (images v) = .ok (entries v)) :
    d.Exact w w' table lines ↔ d.Restored w' table lines := by
  constructor
  · intro hexact v i bytes hstored
    obtain ⟨j, l, hkey, hl⟩ := (hs.survey v).exists_keyOf_of_stored? hstored
    obtain rfl := keyOf_inj.1 hkey
    obtain ⟨hempty, tiles, hread, rfl⟩ :=
      ((hs.survey v).stored?_eq_some_iff (hs.length v) hl).1 hstored
    obtain ⟨name, tiles', hname, hread', hrebuilt⟩ :=
      hexact v _ _ (himages v) (hentries v) i l hl hempty
    obtain rfl := ok.inj (hread.symm.trans hread')
    exact ⟨name, hname, hrebuilt⟩
  · intro hall v image ls himage hls i l hl hempty
    obtain rfl := ok.inj ((himages v).symm.trans himage)
    obtain rfl := ok.inj ((hentries v).symm.trans hls)
    rcases (hs.survey v).exists_owner hl with ⟨hzero, -⟩ | ⟨o, t, -, howner, hfound, -⟩
    · exact absurd hzero hempty
    · have hstored := stored?_of_owner howner hfound
      obtain ⟨-, tiles, hread, hbytes⟩ :=
        ((hs.survey v).stored?_eq_some_iff (hs.length v) hl).1 hstored
      obtain ⟨name, hname, hrebuilt⟩ := hall v i _ hstored
      exact ⟨name, tiles, hname, hread, hbytes ▸ hrebuilt⟩

namespace Sound

theorem mem_missing_of_lone (hs : d.Sound images entries)
    (h : Lone d.first.found d.second.found key) : key ∈ d.comparison.classes.missing := by
  unfold Lone at h
  cases hfirst : d.first.found.find? key with
  | some a =>
    cases hsecond : d.second.found.find? key with
    | some b =>
      rw [hfirst, hsecond] at h
      exact absurd rfl h
    | none =>
      have hkey := hs.mem_keys_iff.2 ⟨.kabuto, a, hfirst⟩
      exact hs.mem_missing (v := .kuwagata) hkey hsecond
  | none =>
    cases hsecond : d.second.found.find? key with
    | some b =>
      have hkey := hs.mem_keys_iff.2 ⟨.kuwagata, b, hsecond⟩
      exact hs.mem_missing (v := .kabuto) hkey hfirst
    | none =>
      rw [hfirst, hsecond] at h
      exact absurd rfl h

theorem mem_sections_of_pair (hs : d.Sound images entries) {a b : Found}
    (ha : d.first.found.find? key = some a) (hb : d.second.found.find? key = some b)
    (hdata : a.tiles.data = b.tiles.data) (v : Version) (written : Table (Array UInt8) String) :
    (key, d.title key) ∈ d.sections v written := by
  have hnot : ¬Paired d.first.found d.second.found false key := by
    rintro ⟨a', b', ha', hb', hdata'⟩
    obtain rfl := Option.some.inj (ha.symm.trans ha')
    obtain rfl := Option.some.inj (hb.symm.trans hb')
    rw [hdata, beq_self_eq_true] at hdata'
    cases hdata'
  have hkey := hs.mem_keys_iff.2 ⟨.kabuto, a, ha⟩
  simp only [sections, mem_append, mem_map]
  rcases Classes.mem_keys_iff.1 hkey with hkey | hkey | hkey | hkey | hkey
  · exact .inl (.inl (.inl (.inl ⟨key, hkey, rfl⟩)))
  · exact absurd (hs.sorted.tiles key hkey) hnot
  · exact .inl (.inl (.inr ⟨key, hkey, rfl⟩))
  · exact absurd (hs.sorted.both key hkey) hnot
  · have hlone := hs.sorted.missing key hkey
    rw [Lone, ha, hb] at hlone
    exact absurd rfl hlone

end Sound

namespace Outcome

variable {written : Version → Table (Array UInt8) String}
  {alone : Version → List (String × ByteArray)}

section

variable (h : d.Outcome w table lines written alone) (ha : d.Apart) (hs : d.Sound images entries)

include h ha hs

theorem name_cases (hi : i < entryCount) :
    (keyOf i ∈ d.comparison.classes.keys ∧ table[i]? = some (d.title (keyOf i))) ∨
      keyOf i ∉ d.comparison.classes.keys ∧ ∃ o, d.first.owner? (keyOf i) = some o ∧
        table[i]? = some (d.title o) ∧
        (o = addressTableEnd ∨ ∃ t, d.first.found.find? o = some t) := by
  have htitle : ∀ key : Nat, (d.names.find? key).isSome →
      d.names.find? key = some (d.title key) := by
    intro key hkey
    obtain ⟨name, hname⟩ := Option.isSome_iff_exists.1 hkey
    rw [title, hname]
    rfl
  rw [h.table i hi]
  by_cases hkey : keyOf i ∈ d.comparison.classes.keys
  · left
    rw [htitle (keyOf i) ((ha.named _).2 (.inl hkey))]
    exact ⟨hkey, rfl⟩
  · right
    have hnone : d.names.find? (keyOf i) = none := by
      rw [← Option.not_isSome_iff_eq_none, ha.named, not_or]
      exact ⟨hkey, keyOf_ne_addressTableEnd hi⟩
    refine ⟨hkey, ?_⟩
    rw [hnone, sharedName]
    rcases hs.owner_cases .kabuto hi with howner | ⟨o, t, howner, hfound⟩
    · refine ⟨addressTableEnd, howner, ?_, .inl rfl⟩
      have howner' : d.first.owner? (keyOf i) = some addressTableEnd := howner
      rw [howner']
      exact htitle _ ((ha.named _).2 (.inr rfl))
    · refine ⟨o, howner, ?_, .inr ⟨t, hfound⟩⟩
      have howner' : d.first.owner? (keyOf i) = some o := howner
      rw [howner']
      exact htitle _ ((ha.named _).2 (.inl (hs.mem_keys_iff.2 ⟨.kabuto, t, hfound⟩)))

theorem rebuilt_of_faithful (hd : d.Faithful) (hkey : key ∈ d.comparison.classes.keys)
    (hstored : (d.survey v).stored? key = some bytes) :
    d.Rebuilt w v (lines v) (d.title key) bytes := by
  obtain ⟨o, t, howner, hfound, rfl⟩ := exists_of_stored? hstored
  -- the file stands in the section of the owner, of which the key is another name
  obtain ⟨⟨_, file⟩, hfile, rfl⟩ := mem_map.1 (hs.mem_map_fst_sections.2 ⟨t, hfound⟩)
  obtain ⟨hslash, v', k, t₁, t', hfound₁, hfound', hdata, hsame, hread⟩ :=
    h.exists_stored ha hs hfile
  obtain rfl := Option.some.inj (hfound.symm.trans hfound₁)
  have hbytes : t'.tiles.stored = t.tiles.stored := by
    rcases hsame with rfl | ⟨ho, hk⟩
    · exact hd.stored_eq hfound' hfound hdata
    · exact hd.lone v' v k _ t' t (hs.sorted.missing k hk) (hs.sorted.missing _ ho) hfound' hfound
        hdata
  rw [hbytes] at hread
  exact ⟨file, hslash, h.filesAt_title hs ha hkey howner hfile, hread⟩

theorem restored_of_faithful (hd : d.Faithful) : d.Restored w table lines := by
  intro v i bytes hstored
  obtain ⟨j, l, hkey, hl⟩ := (hs.survey v).exists_keyOf_of_stored? hstored
  obtain rfl := keyOf_inj.1 hkey
  have hi : i < entryCount := hs.length v ▸ (List.getElem?_eq_some_iff.1 hl).1
  rcases h.name_cases ha hs hi with ⟨hkeys, hname⟩ | ⟨hkeys, o, howner, hname, ho⟩
  · exact ⟨_, hname, h.rebuilt_of_faithful ha hs hd hkeys hstored⟩
  · -- an entry without a name of its own has that of its tileset in the first version
    have hnone : ∀ v, (d.survey v).found.find? (keyOf i) = none := by
      intro v
      rw [← Option.not_isSome_iff_eq_none, Option.isSome_iff_exists]
      exact fun hfound => hkeys (hs.mem_keys_iff.2 ⟨v, hfound⟩)
    have hshared : (d.survey v).stored? o = some bytes := by
      cases v with
      | kabuto =>
        obtain ⟨o', t, howner', hfound, rfl⟩ := exists_of_stored? hstored
        obtain rfl := Option.some.inj (howner.symm.trans howner')
        exact (hs.survey .kabuto).stored?_of_found hfound
      | kuwagata =>
        obtain ⟨o', howner', hbytes⟩ :=
          hd.nameless _ bytes (hnone .kabuto) (hnone .kuwagata) hstored
        obtain rfl := Option.some.inj (howner.symm.trans howner')
        exact hbytes
    have hkeys' : o ∈ d.comparison.classes.keys := by
      rcases ho with rfl | hfound
      · obtain ⟨j, l, hend, hl⟩ := (hs.survey v).exists_keyOf_of_stored? hshared
        have hj := (List.getElem?_eq_some_iff.1 hl).1
        exact absurd hend.symm (keyOf_ne_addressTableEnd (hs.length v ▸ hj))
      · exact hs.mem_keys_iff.2 ⟨.kabuto, hfound⟩
    exact ⟨_, hname, h.rebuilt_of_faithful ha hs hd hkeys' hshared⟩

end

end Outcome

/-! ### What rebuilt tilesets have in common -/

namespace Restored

variable {written : Version → Table (Array UInt8) String}
  {alone : Version → List (String × ByteArray)} {a b : Found}

section

variable (hall : d.Restored w table lines) (h : d.Outcome w table lines written alone)
  (ha : d.Apart) (hs : d.Sound images entries)

include hall h ha hs

theorem rebuilt (hkey : key ∈ d.comparison.classes.keys)
    (hstored : (d.survey v).stored? key = some bytes) :
    d.Rebuilt w v (lines v) (d.title key) bytes := by
  obtain ⟨i, hi, rfl⟩ := hs.exists_keyOf hkey
  obtain ⟨name, hname, hrebuilt⟩ := hall v i bytes hstored
  rcases h.name_cases ha hs hi with ⟨-, hname'⟩ | ⟨hnot, -⟩
  · rwa [Option.some.inj (hname.symm.trans hname')] at hrebuilt
  · exact absurd hkey hnot

theorem read (hfound : (d.survey v).found.find? key = some a)
    (hfile : (key, file) ∈ d.sections v (written v)) (hplain : forVersion v file = file) :
    w.read (Path.join d.folders.stored (file ++ ".malias")) = .ok a.tiles.stored := by
  have hkey := hs.mem_keys_iff.2 ⟨v, a, hfound⟩
  have hrebuilt := hall.rebuilt h ha hs hkey ((hs.survey v).stored?_of_found hfound)
  have hfiles := h.filesAt_title hs ha hkey ((hs.survey v).owner?_of_found hfound) hfile
  have hbytes := hrebuilt.read (h.exists_stored ha hs hfile).1 hfiles
  rwa [hplain] at hbytes

theorem stored_eq_of_pair (hfirst : d.first.found.find? key = some a)
    (hsecond : d.second.found.find? key = some b) (hdata : a.tiles.data = b.tiles.data) :
    a.tiles.stored = b.tiles.stored := by
  have hkey := hs.mem_keys_iff.2 ⟨.kabuto, a, hfirst⟩
  have hplain := Assembly.forVersion_eq_self (ha.brace key hkey)
  have hfile := fun v => hs.mem_sections_of_pair hfirst hsecond hdata v (written v)
  have hread := hall.read h ha hs (v := .kabuto) hfirst (hfile _) (hplain _)
  have hread' := hall.read h ha hs (v := .kuwagata) hsecond (hfile _) (hplain _)
  exact ok.inj (hread.symm.trans hread')

theorem stored_eq_of_lone (hlone : Lone d.first.found d.second.found key)
    (hlone' : Lone d.first.found d.second.found key')
    (hfound : (d.survey v).found.find? key = some a)
    (hfound' : (d.survey v').found.find? key' = some b) (hdata : a.tiles.data = b.tiles.data) :
    a.tiles.stored = b.tiles.stored := by
  obtain ⟨file, hwritten, hfile, -⟩ := h.exists_fileIn (hs.mem_missing_of_lone hlone) hfound
  obtain ⟨file', hwritten', hfile', -⟩ := h.exists_fileIn (hs.mem_missing_of_lone hlone') hfound'
  -- files are found by the tiles, so the two tilesets have the same one
  rw [hdata] at hwritten
  obtain rfl := Option.some.inj (hwritten.symm.trans hwritten')
  obtain ⟨v₀, k, -, hk, -, -, rfl, -⟩ := h.exists_origin hwritten
  have hplain := fun v => Outcome.forVersion_strayName ha (Classes.mem_keys_of_missing hk) v v₀
  have hread := hall.read h ha hs hfound hfile (hplain v)
  exact ok.inj (hread.symm.trans (hall.read h ha hs hfound' hfile' (hplain v')))

theorem exists_owner (hfirst : d.first.found.find? key = none)
    (hsecond : d.second.found.find? key = none) (hstored : d.second.stored? key = some bytes) :
    ∃ o, d.first.owner? key = some o ∧ d.second.stored? o = some bytes := by
  obtain ⟨i, l, rfl, hl⟩ := (hs.survey .kuwagata).exists_keyOf_of_stored? hstored
  have hi : i < entryCount := hs.length .kuwagata ▸ (List.getElem?_eq_some_iff.1 hl).1
  obtain ⟨name, hname, hrebuilt⟩ := hall .kuwagata i bytes hstored
  rcases h.name_cases ha hs hi with ⟨hkey, -⟩ | ⟨-, o, howner, hname', ho⟩
  · obtain ⟨v, t, hfound⟩ := hs.mem_keys_iff.1 hkey
    cases v with
    | kabuto => cases hfirst.symm.trans hfound
    | kuwagata => cases hsecond.symm.trans hfound
  · rw [Option.some.inj (hname.symm.trans hname')] at hrebuilt
    refine ⟨o, howner, ?_⟩
    rcases ho with rfl | ⟨t, hfound⟩
    · -- no file stands at the end of the table, nor at an entry that is empty in this version
      exact absurd (h.filesAt_stop hs ha .kuwagata) hrebuilt.ne_nil
    · have hkey := hs.mem_keys_iff.2 ⟨.kabuto, t, hfound⟩
      obtain ⟨j, hj, rfl⟩ := hs.exists_keyOf hkey
      rcases hs.owner_cases .kuwagata hj with hempty | ⟨o', t', howner', hfound'⟩
      · exact absurd (h.filesAt_title_of_empty hs ha hkey hempty) hrebuilt.ne_nil
      · have hstored' := stored?_of_owner howner' hfound'
        have hsame := (hall.rebuilt h ha hs hkey hstored').unique hrebuilt
        exact hstored'.trans (congrArg some hsame)

theorem faithful : d.Faithful where
  paired _ _ _ := hall.stored_eq_of_pair h ha hs
  lone _ _ _ _ _ _ := hall.stored_eq_of_lone h ha hs
  nameless _ _ := hall.exists_owner h ha hs

end

end Restored

/-! ### New names -/

theorem toList_freshName (c : Classes) (key : Nat) : (freshName c key).toList =
    "Tileset".toList ++ ((upperHex 4 key).toList ++
      (if c.missing.contains key then "_GAMEVERSION" else "").toList) := by
  rw [freshName, String.toList_append, String.toList_append, append_assoc]

theorem length_upperHex_keyOf (hi : i < entryCount) :
    (upperHex 4 (keyOf i)).toList.length = 4 := by
  have hcount : entryCount = 512 := rfl
  have hkey : 0x1000 ≤ keyOf i ∧ keyOf i < 0x10000 := by
    unfold keyOf addressTable
    omega
  have hpos : ¬((keyOf i : Int) < 0) := by omega
  rw [upperHex, String.toList_map, Text.Numeral.write]
  simp only [if_neg hpos, String.toList_ofList, Int.natAbs_natCast, digitsOf_four hkey.1 hkey.2]
  rfl

theorem length_freshName (hs : d.Sound images entries) (hkey : key ∈ d.comparison.classes.keys) :
    (freshName d.comparison.classes key).toList.length = 11 ∨
      (freshName d.comparison.classes key).toList.length = 23 := by
  obtain ⟨i, hi, rfl⟩ := hs.exists_keyOf hkey
  have hlength := length_upperHex_keyOf hi
  rw [toList_freshName, length_append, length_append, hlength]
  split
  · exact .inr (by decide)
  · exact .inl (by decide)

theorem freshName_inj (hs : d.Sound images entries) (hkey : key ∈ d.comparison.classes.keys)
    (hkey' : key' ∈ d.comparison.classes.keys)
    (h : freshName d.comparison.classes key = freshName d.comparison.classes key') :
    key = key' := by
  obtain ⟨i, hi, rfl⟩ := hs.exists_keyOf hkey
  obtain ⟨j, hj, rfl⟩ := hs.exists_keyOf hkey'
  have hchars := congrArg String.toList h
  rw [toList_freshName, toList_freshName] at hchars
  have hdigits := append_inj_left (append_cancel_left hchars)
    ((length_upperHex_keyOf hi).trans (length_upperHex_keyOf hj).symm)
  exact upperHex_inj (String.toList_inj.1 hdigits)

theorem notMem_freshName {c : Char} (hword : c ∉ "Tileset_GAMEVERSION".toList)
    (hdigit : ∀ n < 16, n.digitChar.toUpper ≠ c) (classes : Classes) (key : Nat) :
    c ∉ (freshName classes key).toList := by
  have hchars : "Tileset_GAMEVERSION".toList = "Tileset".toList ++ "_GAMEVERSION".toList := by
    decide
  rw [hchars, mem_append, not_or] at hword
  rw [toList_freshName, mem_append, mem_append]
  rintro (hmem | hmem | hmem)
  · exact hword.1 hmem
  · exact notMem_upperHex hdigit 4 key hmem
  · split at hmem
    · exact hword.2 hmem
    · cases hmem

theorem Of.apart {f : Folders} {w : Workspace} (hd : d.Of f w) (hs : d.Sound images entries)
    (hfresh : w.hasPath (namesPath f) = false) : d.Apart := by
  have hnames : ∀ key : Nat, d.names.find? key = if key = addressTableEnd then some stopName.2
      else if key ∈ d.comparison.classes.keys then some (freshName d.comparison.classes key)
      else none := by
    intro key
    rw [hd.names_of_fresh hfresh, find?_freshNames hs.notMem_addressTableEnd]
  have hstop : d.title addressTableEnd = stopName.2 := by
    rw [title, hnames]
    rfl
  have htitle : ∀ key ∈ d.comparison.classes.keys,
      d.title key = freshName d.comparison.classes key := by
    intro key hkey
    have hne : key ≠ addressTableEnd := fun h => hs.notMem_addressTableEnd (h ▸ hkey)
    rw [title, hnames, if_neg hne, if_pos hkey]
    rfl
  have hnamed : ∀ key : Nat, (d.names.find? key).isSome ↔
      key ∈ d.comparison.classes.keys ∨ key = addressTableEnd := by
    intro key
    rw [hnames]
    by_cases hend : key = addressTableEnd
    · simp [hend]
    · by_cases hkey : key ∈ d.comparison.classes.keys
      · simp [hend, hkey]
      · simp [hend, hkey]
  have hlength : stopName.2.toList.length = 28 := by decide
  -- the lengths keep the names apart from that of the end and from names with a version
  have hne : ∀ key ∈ d.comparison.classes.keys, d.title key ≠ d.title addressTableEnd := by
    intro key hkey h
    rw [htitle key hkey, hstop] at h
    rcases length_freshName hs hkey with hlen | hlen <;> rw [h] at hlen <;> omega
  refine ⟨hnamed, ?_, ?_, ?_, ?_⟩
  · intro key key' hkey hkey' h
    rcases (hnamed key).1 hkey with hkey | rfl <;> rcases (hnamed key').1 hkey' with hkey' | rfl
    · rw [htitle key hkey, htitle key' hkey'] at h
      exact freshName_inj hs hkey hkey' h
    · exact absurd h (hne key hkey)
    · exact absurd h.symm (hne key' hkey')
    · rfl
  · intro key hkey
    rw [htitle key hkey]
    exact notMem_freshName (by decide) (by decide) _ key
  · intro key hkey
    rw [htitle key hkey]
    exact notMem_freshName (by decide) (by decide) _ key
  · intro key hkey key' hkey' v h
    have hv : ("_" ++ v.name).toList.length = 7 ∨ ("_" ++ v.name).toList.length = 9 := by
      cases v <;> decide
    have hlen := congrArg (fun s : String => s.toList.length) h
    simp only [strayName, htitle key hkey, htitle key' hkey', String.append_assoc] at hlen
    rw [String.toList_append, length_append] at hlen
    have hfirst := length_freshName hs hkey
    have hsecond := length_freshName hs hkey'
    omega

end Dump

/-! ### The whole dump -/

variable {f : Folders} {w w' : Workspace}

/-- **When tilesets are rebuilt exactly.**  After a dump whose names are apart, as new names are,
every entry of every version that is not empty has at its name in the version's source the bytes of
its tileset in the version's image, exactly if tilesets that share a file are stored alike and the
entries without a name of their own lead to what they are named after. -/
theorem exact_iff_faithful (h : (dump f).on w = (.ok (), w')) :
    ∃ (d : Dump) (table : List String) (lines : Version → List Assembly.Line), d.Of f w ∧
      d.Sources w' table lines ∧ table.length = entryCount ∧
      (w.hasPath (namesPath f) = false → d.Apart) ∧
      (d.Apart → (d.Exact w w' table lines ↔ d.Faithful)) := by
  obtain ⟨d, table, lines, written, alone, hd, houtcome⟩ := Dump.exists_outcome h
  obtain ⟨images, entries, himages, hentries, hs⟩ := hd.exists_sound
  refine ⟨d, table, lines, hd, houtcome.sources, houtcome.length, hd.apart hs, fun ha => ?_⟩
  rw [Dump.exact_iff_restored hs himages hentries]
  constructor
  · intro hall
    exact hall.faithful houtcome ha hs
  · intro hfaithful
    exact houtcome.restored_of_faithful ha hs hfaithful

/-! ### Small dumps -/

theorem Dump.faithful_of_eq {d : Dump} {images : Version → ByteArray}
    {entries : Version → List Listing} (hs : d.Sound images entries) (h : d.second = d.first) :
    d.Faithful where
  paired key a b hfirst hsecond _ := by
    rw [h] at hsecond
    rw [Option.some.inj (hfirst.symm.trans hsecond)]
  lone v v' key key' a b hlone := by
    rw [h] at hlone
    exact absurd rfl hlone
  nameless key bytes _ _ hstored := by
    rw [h] at hstored ⊢
    obtain ⟨o, t, howner, hfound, rfl⟩ := exists_of_stored? hstored
    exact ⟨o, howner, (hs.survey .kabuto).stored?_of_found hfound⟩

theorem exact_repeated :
    ∃ (w' : Workspace) (d : Dump) (table : List String) (lines : Version → List Assembly.Line),
      (dump sampleFolders).on (sampleWorkspace repeatedImage repeatedImage) = (.ok (), w') ∧
      d.Of sampleFolders (sampleWorkspace repeatedImage repeatedImage) ∧
      d.Sources w' table lines ∧ table.length = entryCount ∧
      d.Exact (sampleWorkspace repeatedImage repeatedImage) w' table lines := by
  obtain ⟨w', hon⟩ := exists_on_dump_repeated
  obtain ⟨d, table, lines, hd, hsources, hlength, hapart, hiff⟩ := exact_iff_faithful hon
  obtain ⟨images, entries, -, -, hs⟩ := hd.exists_sound
  have hsame : d.second = d.first := by
    obtain ⟨image, himage, hfirst⟩ := hd.survey .kabuto
    obtain ⟨image', himage', hsecond⟩ := hd.survey .kuwagata
    rw [read_sample_kabuto, Except.ok.injEq] at himage
    rw [read_sample_kuwagata, Except.ok.injEq] at himage'
    subst himage himage'
    exact Except.ok.inj (hsecond.symm.trans hfirst)
  refine ⟨w', d, table, lines, hon, hd, hsources, hlength, ?_⟩
  exact (hiff (hapart (hasPath_sample _ _))).2 (Dump.faithful_of_eq hs hsame)

/-- The empty tile of `plainTile` as sixteen tokens. -/
def packedTile : List UInt8 := Token.stored (List.replicate 16 (.literal 0))

theorem packedTile_eq :
    packedTile = 1 :: Bytes.wordBytes 16 ++ Bytes.wordBytes 0 ++ List.replicate 16 0 := by
  cbv

theorem readAt_packedTile : readAt (imageOf packedTile sampleEntries) 0 =
    .ok ⟨(List.replicate 16 0).toArray, packedTile.toByteArray⟩ := by
  have hin : Token.AllWithin [] (List.replicate 16 (.literal 0)) := by decide
  have hdecode : decode (imageOf packedTile sampleEntries) 0 = _ :=
    decode_stored hin (by decide) (holds_imageOf packedTile sampleEntries)
  refine bind_ok_iff.2 ⟨0, rfl, ?_⟩
  rw [hdecode]
  rfl

/-- A tileset is not rebuilt exactly: the versions store the same tiles in different ways, and the
second version takes in what the first one stores. -/
theorem not_exact_packed :
    ∃ (w' : Workspace) (d : Dump) (table : List String) (lines : Version → List Assembly.Line),
      (dump sampleFolders).on (sampleWorkspace repeatedImage (imageOf packedTile sampleEntries)) =
        (.ok (), w') ∧
      d.Of sampleFolders (sampleWorkspace repeatedImage (imageOf packedTile sampleEntries)) ∧
      d.Sources w' table lines ∧ table[0]? = some "Tileset3995" ∧
      filesAt "Tileset3995" (lines .kuwagata) = [d.storedPath "Tileset3995"] ∧
      w'.read "pre/Tileset3995.malias" = .ok plainTile.toByteArray ∧
      readAt (imageOf packedTile sampleEntries) 0 =
        .ok ⟨(List.replicate 16 0).toArray, packedTile.toByteArray⟩ ∧
      ¬d.Exact (sampleWorkspace repeatedImage (imageOf packedTile sampleEntries)) w' table
        lines := by
  have hfits : packedTile.length ≤ addressTable := by
    rw [packedTile_eq]
    decide
  obtain ⟨w', hon⟩ := exists_on_dump_sample (by decide) hfits readAt_plainTile readAt_packedTile rfl
    (by decide)
  obtain ⟨d, table, lines, written, alone, hd, houtcome⟩ := Dump.exists_outcome hon
  obtain ⟨images, entries, himages, hentries, hs⟩ := hd.exists_sound
  have ha := hd.apart hs (hasPath_sample _ _)
  obtain ⟨hfirst, hsecond, ⟨keys, hclasses, hkeys⟩, hnames⟩ :=
    of_sample hd (by decide) hfits readAt_plainTile readAt_packedTile rfl
  have hcommon : keyOf 0 ∈ d.comparison.classes.common := by
    rw [hclasses]
    exact (hkeys (keyOf 0)).2 rfl
  have htitle : d.title (keyOf 0) = "Tileset3995" := by
    rw [Dump.title, hnames]
    rfl
  have hname : table[0]? = some "Tileset3995" := by
    rw [houtcome.table 0 (by decide), hnames]
    rfl
  have hfiles : filesAt "Tileset3995" (lines .kuwagata) = [d.storedPath "Tileset3995"] := by
    rw [← htitle]
    exact houtcome.filesAt_title hs ha (Classes.mem_keys_of_common hcommon)
      ((hs.survey .kuwagata).owner?_of_found hsecond)
      (hs.mem_sections_of_pair hfirst hsecond rfl .kuwagata _)
  have hpath : Path.join d.folders.stored ("Tileset3995" ++ ".malias") =
      "pre/Tileset3995.malias" := by
    rw [hd.folders]
    decide +kernel
  have hread : w'.read "pre/Tileset3995.malias" = .ok plainTile.toByteArray := by
    have hread := houtcome.read_common ha hs hcommon
    rwa [htitle, hpath, Dump.storedOf_of_found (v := .kabuto) hfirst] at hread
  refine ⟨w', d, table, lines, hon, hd, houtcome.sources, hname, hfiles, hread, readAt_packedTile,
    ?_⟩
  intro hexact
  obtain ⟨name, tiles, hname', htiles, hrebuilt⟩ := hexact .kuwagata _ _ (read_sample_kuwagata _ _)
    (readListings_sample hfits) 0 ⟨1, 0, 0x9000, 0⟩ rfl (by decide)
  have hstart : (⟨1, 0, 0x9000, 0⟩ : Listing).position = 0 := by decide
  rw [hstart, readAt_packedTile, Except.ok.injEq] at htiles
  subst htiles
  obtain rfl := Option.some.inj (hname.symm.trans hname')
  have hbytes := hrebuilt.read (by decide) hfiles
  rw [Assembly.forVersion_eq_self (by decide), hpath, hread, packedTile_eq]
    at hbytes
  exact absurd hbytes (by decide)

end Cartridge.Tileset
