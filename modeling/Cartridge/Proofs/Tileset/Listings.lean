import Cartridge.Proofs.Tileset.Complete

/-!
# The listings of the tilesets

A dump names the tileset of every entry in three places: in the table of addresses, in the info
table, and in the list of names that other programs read.  The first two always agree.

* `Dump.exists_index`: an entry without a name of its own is listed with that of the last entry's
  tileset.
-/

open List

namespace Cartridge

open Text.Numeral Job

def Assembly.calls (name : String) (lines : List Line) : List String :=
  lines.filterMap fun
    | .call n operands => if n = name then some operands else none
    | _ => none

namespace Tileset

open Assembly (calls)
open Workspace

variable {f : Folders} {w w' : Workspace} {i n : Nat} {image data : ByteArray} {ls : List Listing}
  {name name' : String}

def tableEntry (e : String × Nat) : String :=
  e.1 ++ " ; " ++ upperHex 2 e.2 ++ " (" ++ upperHex 4 (keyOf e.2) ++ ")"

def infoEntry (e : (String × Listing) × Nat) : String :=
  "BANK(" ++ e.1.1 ++ "), " ++ Assembly.hex 4 e.1.2.target ++ ", " ++
    Assembly.hex 0 e.1.2.targetBank ++ " ; " ++ upperHex 3 e.2

def indexEntry (e : String × Nat) : String := upperHex 3 e.2 ++ "=" ++ e.1 ++ "\n"

def indexPath (f : Folders) : String := Path.join f.resources "meta_tileset_index.tbl"

/-- The names of the entries in the files of a dump: `table` in the tables, `index` in the list. -/
structure Listed (f : Folders) (w : Workspace) (ls : List Listing) (table index : List String) :
    Prop where
  table : ∃ lines, w.read (Dump.sharedPath f) = .ok (Assembly.render lines).toUTF8 ∧
    calls "TilesetTableEntry" lines = table.zipIdx.map tableEntry ∧
    calls "dbwb" lines = (table.zip ls).zipIdx.map infoEntry
  index : w.read (indexPath f) = .ok (String.join (index.zipIdx.map indexEntry)).toUTF8

namespace Dump

variable {d : Dump} {v v' : Version}

/-! ### The tables -/

theorem calls_append (name : String) (lines lines' : List Assembly.Line) :
    calls name (lines ++ lines') = calls name lines ++ calls name lines' :=
  filterMap_append

theorem calls_map_call (name : String) (operands : List String) :
    calls name (operands.map (.call name)) = operands := by
  rw [calls, filterMap_map]
  exact (filterMap_congr fun x _ => if_pos rfl).trans filterMap_some

theorem calls_map_call_of_ne (hne : name' ≠ name) (operands : List String) :
    calls name (operands.map (.call name')) = [] := by
  rw [calls, filterMap_map, filterMap_eq_nil_iff]
  exact fun x _ => if_neg hne

theorem calls_block (name spot title : String) (others : List String) (file : String) :
    calls name (d.block spot title others file) = [] := by
  have hlabels : calls name (others.map .label) = [] := by
    rw [calls, filterMap_map, filterMap_eq_nil_iff]
    exact fun _ _ => rfl
  rw [block, calls_append, calls_append, hlabels]
  rfl

theorem calls_blocks (name : String) {others : Nat → List String} {file : Nat → String}
    {keys : List Nat} {blocks : List (List Assembly.Line)}
    (h : List.Forall₂ (d.IsBlock others file) keys blocks) : calls name blocks.flatten = [] := by
  induction h with
  | nil => rfl
  | cons hfirst _ ih =>
    obtain ⟨spot, rfl⟩ := hfirst
    rw [flatten_cons, calls_append, calls_block, ih]
    rfl

theorem map_zip_keyed (names : List String) (ls : List Listing) (n : Nat) :
    (names.zip ((keyed ls n).zipIdx n)).map (fun e => ((e.1, e.2.1.2), e.2.2)) =
      (names.zip ls).zipIdx n := by
  induction ls generalizing names n with
  | nil => rw [keyed, zipIdx_nil, map_nil, zipIdx_nil, zip_nil_right,
      zip_nil_right, map_nil, zipIdx_nil]
  | cons l ls ih =>
    cases names with
    | nil => rfl
    | cons name names =>
      rw [keyed_cons, zipIdx_cons, zip_cons_cons, map_cons, ih, zip_cons_cons, zipIdx_cons]

theorem calls_tableLines {tables : List Assembly.Line} (hls : d.first.listings.entries = keyed ls 0)
    (h : d.tableLines = .ok tables) :
    ∃ table, List.Forall₂ (fun e name => d.listedName e.1 e.2.position = .ok name) (keyed ls 0)
        table ∧
      calls "TilesetTableEntry" tables = table.zipIdx.map tableEntry ∧
      calls "dbwb" tables = (table.zip ls).zipIdx.map infoEntry := by
  simp only [tableLines, bind_ok_iff, pure_ok_iff, hls] at h
  obtain ⟨table, htable, stop, -, rfl⟩ := h
  have haddresses : (table.zipIdx.map fun e => Assembly.Line.call "TilesetTableEntry"
      (e.1 ++ " ; " ++ upperHex 2 e.2 ++ " (" ++ upperHex 4 (keyOf e.2) ++ ")")) =
      (table.zipIdx.map tableEntry).map (.call "TilesetTableEntry") := by
    rw [map_map]
    rfl
  have hinfo : ((table.zip (keyed ls 0).zipIdx).map fun e => Assembly.Line.call "dbwb"
      ("BANK(" ++ e.1 ++ "), " ++ Assembly.hex 4 e.2.1.2.target ++ ", " ++
        Assembly.hex 0 e.2.1.2.targetBank ++ " ; " ++ upperHex 3 e.2.2)) =
      ((table.zip ls).zipIdx.map infoEntry).map (.call "dbwb") := by
    rw [← map_zip_keyed table ls 0, map_map, map_map]
    rfl
  refine ⟨table, ?_, ?_, ?_⟩
  · have hall := mapM_ok_iff.1 htable
    rw [← zipIdx_map_fst 0 (keyed ls 0), forall₂_map_left_iff]
    exact hall
  · rw [haddresses, hinfo]
    simp only [calls_append, calls_map_call]
    rw [calls_map_call_of_ne (by decide)]
    simp [calls]
  · rw [haddresses, hinfo]
    simp only [calls_append, calls_map_call]
    rw [calls_map_call_of_ne (by decide)]
    simp [calls]

/-! ### The list of names -/

theorem of_indexLoop {index offsets : String} (hne : index ≠ offsets) {last : Int}
    {es : List (Nat × Listing)} {old : ByteArray} {u : PUnit}
    (hold : w.files.find? index = some old)
    (h : (forIn (es.zipIdx n) PUnit.unit fun x _ => do
        let name ← lift (d.listedName x.1.1 last)
        append index (upperHex 3 x.2 ++ "=" ++ name ++ "\n").toUTF8
        append offsets (upperHex 3 x.2 ++ "=" ++ upperHex 4 x.1.2.target ++ "\n").toUTF8
        pure (ForInStep.yield PUnit.unit) : Job PUnit).on w = (.ok u, w')) :
    ∃ names, List.Forall₂ (fun e name => d.listedName e.1 last = .ok name) es names ∧
      SameBut (fun key => key = index ∨ key = offsets) w w' ∧
      w'.files.find? index =
        some (old ++ (String.join ((names.zipIdx n).map indexEntry)).toUTF8) := by
  induction es generalizing n w old with
  | nil =>
    cases h
    refine ⟨[], .nil, .refl _ _, ?_⟩
    rw [hold]
    exact congrArg some ByteArray.append_empty.symm
  | cons e es ih =>
    simp only [zipIdx_cons, forIn_cons, on_bind_ok_iff, on_lift, on_pure,
      Prod.mk.injEq, Except.ok.injEq] at h
    obtain ⟨_, v, ⟨name, _, ⟨hname, rfl⟩, ⟨⟩, v₁, hindex, ⟨⟩, v₂, hoffsets, rfl, rfl⟩, hrest⟩ := h
    obtain ⟨hadded, hfull⟩ := of_append hold hindex
    have hadded' := sameBut_of_append hoffsets
    have hkept : v₂.files.find? index = some (old ++ (indexEntry (name, n)).toUTF8) := by
      rw [hadded'.files index hne, hfull]
      rfl
    obtain ⟨names, hnames, hsame, hlines⟩ := ih hkept hrest
    refine ⟨name :: names, .cons hname hnames, ?_, ?_⟩
    · exact ((hadded.mono fun _ => .inl).trans (hadded'.mono fun _ => .inr)).trans hsame
    · rw [hlines, zipIdx_cons, map_cons, String.join_cons, ByteArray.append_assoc]
      exact congrArg (fun b => some (old ++ b)) String.toByteArray_append.symm

/-- **The list of names**: every entry with its own name or that of the last entry's tileset. -/
theorem of_dumpIndex (h : d.dumpIndex.on w = (.ok (), w')) :
    ∃ names, List.Forall₂ (fun e name => d.listedName e.1
        (((d.first.listings.entries.getLast?).map fun e => e.2.position).getD 0) = .ok name)
        d.first.listings.entries names ∧
      SameBut (EndsIn · ".tbl") w w' ∧
      w'.read (indexPath d.folders) = .ok (String.join (names.zipIdx.map indexEntry)).toUTF8 := by
  simp only [dumpIndex, on_bind_ok_iff, on_pure, Prod.mk.injEq] at h
  obtain ⟨offsets, v, hoffsets, index, v₁, hindex, _, v₂, hloop, -, rfl⟩ := h
  obtain ⟨hoffsetsKey, -, hcreated, -⟩ := of_create hoffsets
  obtain ⟨hindexKey, htarget, hcreated', hempty⟩ := of_create hindex
  have hoffsetsEnd : EndsIn offsets "meta_tileset_load_offsets.tbl" :=
    hoffsetsKey ▸ endsIn_plainPath_join _ suffix_rfl (by decide)
  have hindexEnd : EndsIn index "meta_tileset_index.tbl" :=
    hindexKey ▸ endsIn_plainPath_join _ suffix_rfl (by decide)
  have hne : index ≠ offsets := by
    rintro rfl
    exact hindexEnd.not_endsIn (by decide) hoffsetsEnd
  obtain ⟨names, hnames, hsame, hfile⟩ := of_indexLoop hne hempty hloop
  rw [ByteArray.empty_append] at hfile
  have hboth : SameBut (fun key => key = index ∨ key = offsets) v v₂ :=
    (hcreated'.mono fun _ => .inl).trans hsame
  refine ⟨names, hnames, ?_, ?_⟩
  · have hall := (hcreated.mono fun _ => .inr).trans hboth
    refine hall.mono ?_
    rintro key (rfl | rfl)
    · exact List.IsSuffix.trans (by decide) hindexEnd
    · exact List.IsSuffix.trans (by decide) hoffsetsEnd
  · exact read_ok_iff.2 ⟨index, hboth.target htarget, hfile⟩

theorem versionPath_eq (f : Folders) (v : Version) :
    versionPath f v = Path.join f.source (v.name ++ "/" ++ "tileset_table.asm") := by
  rw [String.append_assoc]
  rfl

theorem sharedPath_ne_versionPath (f : Folders) (v : Version) :
    plainPath (sharedPath f) ≠ plainPath (versionPath f v) := by
  rw [versionPath_eq]
  exact plainPath_join_ne (by decide) (fileName_version v)

theorem versionPath_inj (h : plainPath (versionPath f v) = plainPath (versionPath f v')) :
    v = v' := by
  rw [versionPath_eq, versionPath_eq] at h
  exact plainPath_version_inj (by decide) h

theorem read_sharedPath_of_dumpVersion {written written' : Table (Array UInt8) String}
    (h : (d.dumpVersion written v).on w = (.ok written', w'))
    (hread : w.read (sharedPath d.folders) = .ok data) :
    w'.read (sharedPath d.folders) = .ok data := by
  obtain ⟨_, _, _, _, -, -, -, hsaved, -⟩ := of_dumpVersion h
  refine hsaved.same.read hread ?_
  rintro (htiles | hversion)
  · exact not_isTiles_of_source (endsIn_sharedPath d.folders) htiles
  · exact sharedPath_ne_versionPath d.folders v hversion

/-- The name of the tileset that an entry leads to. -/
def sharedName (d : Dump) (i : Nat) : Option String :=
  (d.first.owner? (keyOf i)).bind fun o => d.names.find? o

theorem sharedName_eq {l : Listing} (hsound : d.first.Sound image ls) (hl : ls[i]? = some l) :
    d.sharedName i = (d.first.owners.find? l.position).bind fun o => d.names.find? o := by
  rw [sharedName, hsound.owner?_eq hl, ← hsound.owners]

end Dump

theorem some_eq_of_listedName {d : Dump} {key : Nat} {p : Int} (h : d.listedName key p = .ok name) :
    some name = (d.names.find? key).or ((d.first.owners.find? p).bind fun o => d.names.find? o) := by
  unfold Dump.listedName at h
  cases hname : d.names.find? key with
  | some own =>
    rw [hname] at h
    exact congrArg some (Except.ok.inj h).symm
  | none =>
    simp only [hname, Dump.nameOf, bind_ok_iff, demand_ok_iff] at h
    obtain ⟨o, ho, hshared⟩ := h
    rw [Option.none_or, ho, Option.bind_some, hshared]

theorem getElem?_of_listedName {d : Dump} {names : List String} (position : Listing → Int)
    (h : List.Forall₂ (fun e name => d.listedName e.1 (position e.2) = .ok name) (keyed ls 0) names) :
    names.length = ls.length ∧ ∀ i l, ls[i]? = some l → names[i]? = (d.names.find? (keyOf i)).or
      ((d.first.owners.find? (position l)).bind fun o => d.names.find? o) := by
  obtain ⟨hlength, hall⟩ := forall₂_iff_get.1 h
  rw [keyed, length_map, length_zipIdx] at hlength
  refine ⟨hlength.symm, fun i l hl => ?_⟩
  obtain ⟨hi, rfl⟩ := List.getElem?_eq_some_iff.1 hl
  have hname := hall i (by rwa [keyed, length_map, length_zipIdx]) (hlength ▸ hi)
  rw [getElem?_eq_getElem (hlength ▸ hi)]
  exact some_eq_of_listedName (by simpa [keyed] using hname)

theorem Dump.exists_index {d : Dump} (hs : d.first.Sound image ls) (hls : ls.length = entryCount)
    (h : d.dumpIndex.on w = (.ok (), w')) :
    ∃ index : List String, index.length = entryCount ∧
      (∀ i < entryCount, index[i]? = (d.names.find? (keyOf i)).or (d.sharedName (entryCount - 1))) ∧
      SameBut (EndsIn · ".tbl") w w' ∧
      w'.read (indexPath d.folders) = .ok (String.join (index.zipIdx.map indexEntry)).toUTF8 := by
  obtain ⟨index, hindexed, hsame, hlist⟩ := of_dumpIndex h
  obtain ⟨last, hlast⟩ : ∃ l, ls[entryCount - 1]? = some l :=
    ⟨_, getElem?_eq_getElem (by rw [hls]; decide)⟩
  -- the list is written with the position that the loop over the tables ended with
  have hend : ((keyed ls 0).getLast?.map fun e => e.2.position).getD 0 = last.position := by
    rw [keyed, getLast?_map, getLast?_zipIdx, getLast?_eq_getElem?, hls, hlast]
    rfl
  rw [hs.listings, hend] at hindexed
  obtain ⟨hlength, hnames⟩ := getElem?_of_listedName (fun _ => last.position) hindexed
  refine ⟨index, hlength.trans hls, fun i hi => ?_, hsame, hlist⟩
  rw [sharedName_eq hs hlast]
  exact hnames i _ (getElem?_eq_getElem (hls ▸ hi))

end Tileset

end Cartridge
