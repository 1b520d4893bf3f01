import Cartridge.Proofs.Tileset.Sources

/-!
# The stored tilesets

What the files with stored tilesets hold after a dump.  A file may be written more than once, so
what counts is which tilesets share a file and which of them is stored last.

Main result: `Dump.Outcome.exists_stored`.
-/

open List

namespace Cartridge

def Assembly.versionMark : String := "\x7bGAMEVERSION\x7d"

/-- A path as it is read when a version is assembled. -/
def Assembly.forVersion (v : Version) (path : String) : String :=
  String.ofList (Text.replaceAll Assembly.versionMark.toList v.name.toList path.toList)

namespace Assembly

variable {s : String} {v : Version}

theorem forVersion_append (h : '\x7b' ∉ s.toList) (v : Version) (t : String) :
    forVersion v (s ++ t) = s ++ forVersion v t := by
  apply String.toList_injective
  rw [forVersion, forVersion, String.toList_ofList, String.toList_append, String.toList_append,
    String.toList_ofList]
  exact Text.replaceAll_append_of_notMem h _ _ _

theorem forVersion_eq_self (h : '\x7b' ∉ s.toList) (v : Version) : forVersion v s = s := by
  have happend := forVersion_append h v ""
  have hempty : forVersion v "" = "" := by
    cases v <;> decide +kernel
  rwa [hempty, String.append_empty] at happend

theorem forVersion_mark (h : '\x7b' ∉ s.toList) (v : Version) :
    forVersion v (s ++ "_\x7bGAMEVERSION\x7d") = s ++ "_" ++ v.name := by
  have hmark : forVersion v "_\x7bGAMEVERSION\x7d" = "_" ++ v.name := by
    cases v <;> decide +kernel
  rw [forVersion_append h, hmark, String.append_assoc]

end Assembly

namespace Tileset

open Assembly (forVersion)
open Classes (mem_keys_of_common mem_keys_of_position mem_keys_of_own mem_keys_of_missing
  notMem_position_of_common)
open Workspace (EndsIn)

namespace Dump

variable {d : Dump} {images : Version → ByteArray} {entries : Version → List Listing}
  {v v' : Version} {key o i : Nat} {t : Found} {w w' : Workspace} {stem file name : String}
  {bytes bytes' : ByteArray} {saves : List (String × ByteArray)}

/-! ### What is stored last -/

theorem lookup_reverse_eq (hmem : (stem, bytes) ∈ saves)
    (hall : ∀ bytes', (stem, bytes') ∈ saves → bytes' = bytes) :
    saves.reverse.lookup stem = some bytes := by
  obtain ⟨bytes', hlast, hmem'⟩ := Table.exists_find?_ofList hmem
  rw [← Table.find?_ofList, hlast, hall bytes' hmem']

theorem Saved.read {P : String → Prop} (h : d.Saved P saves w w')
    (hstems : ∀ e ∈ saves, '/' ∉ e.1.toList) (hlast : saves.reverse.lookup stem = some bytes) :
    w'.read (Path.join d.folders.stored (stem ++ ".malias")) = .ok bytes := by
  have hmem : (stem, bytes) ∈ saves :=
    Table.mem_of_find?_ofList ((Table.find?_ofList saves stem).trans hlast)
  have htarget : w.target (Path.join d.folders.stored (stem ++ ".malias")) =
      .ok (d.storedKey stem) := h.targets (stem, bytes) hmem
  have hfile : w'.files.find? (d.storedKey stem) = some bytes := by
    rw [h.files hstems stem (hstems (stem, bytes) hmem), hlast, Option.some_or]
  exact Workspace.read_ok_iff.2 ⟨d.storedKey stem, h.same.target htarget, hfile⟩

inductive Kept (d : Dump) : Version → String × ByteArray → Prop
  | common {v : Version} {key : Nat} (h : key ∈ d.comparison.classes.common) :
    Kept d v (d.title key, d.storedOf .kabuto key)
  | moved {v : Version} {key : Nat} (h : key ∈ d.comparison.classes.position) :
    Kept d v (d.title key, d.storedOf v key)
  | own {v : Version} {key : Nat} (h : key ∈ d.comparison.classes.tiles ∨
      key ∈ d.comparison.classes.both ∨ key ∈ d.comparison.classes.missing) :
    Kept d v (d.strayName v key, d.storedOf v key)

theorem strayName_inj (h : d.strayName v key = d.strayName v' o) :
    v = v' ∧ d.title key = d.title o := by
  have hend : ∀ v key, EndsIn (d.strayName v key) v.name := fun v key => Workspace.endsIn_append ..
  have hversion : v = v' := by
    have hfirst := hend v key
    have hsecond := hend v' o
    rw [← h] at hsecond
    cases v <;> cases v'
    · rfl
    · exact absurd hsecond (hfirst.not_endsIn (by decide))
    · exact absurd hsecond (hfirst.not_endsIn (by decide))
    · rfl
  subst hversion
  rw [strayName, strayName, String.append_left_inj, String.append_left_inj] at h
  exact ⟨rfl, h⟩

theorem notMem_strayName {c : Char} (hc : ∀ v : Version, c ∉ ("_" ++ v.name).toList)
    (h : c ∉ (d.title key).toList) (v : Version) : c ∉ (d.strayName v key).toList := by
  rw [strayName, String.append_assoc, String.toList_append, mem_append, not_or]
  exact ⟨h, hc v⟩

theorem slash_strayName (ha : d.Apart) (hkey : key ∈ d.comparison.classes.keys) (v : Version) :
    '/' ∉ (d.strayName v key).toList := by
  refine notMem_strayName (fun v => ?_) (ha.slash key hkey) v
  cases v <;> decide

theorem storedOf_of_found (h : (d.survey v).found.find? key = some t) :
    d.storedOf v key = t.tiles.stored := by
  rw [storedOf, h]
  rfl

namespace Kept

variable {e : String × ByteArray}

theorem slash (ha : d.Apart) (h : d.Kept v e) : '/' ∉ e.1.toList := by
  cases h with
  | common h => exact ha.slash _ (mem_keys_of_common h)
  | moved h => exact ha.slash _ (mem_keys_of_position h)
  | own h => exact slash_strayName ha (mem_keys_of_own h) v

theorem of_title (ha : d.Apart) (h : d.Kept v e) (ho : o ∈ d.comparison.classes.keys)
    (he : e.1 = d.title o) :
    (o ∈ d.comparison.classes.common ∧ e.2 = d.storedOf .kabuto o) ∨
      (o ∈ d.comparison.classes.position ∧ e.2 = d.storedOf v o) := by
  cases h with
  | common h =>
    obtain rfl := ha.eq_of_title (mem_keys_of_common h) ho he
    exact .inl ⟨h, rfl⟩
  | moved h =>
    obtain rfl := ha.eq_of_title (mem_keys_of_position h) ho he
    exact .inr ⟨h, rfl⟩
  | own h => exact absurd he.symm (ha.stray _ ho _ (mem_keys_of_own h) v)

theorem eq_of_own (ha : d.Apart) (h : d.Kept v e) (ho : o ∈ d.comparison.classes.keys)
    (he : e.1 = d.strayName v' o) : e.2 = d.storedOf v' o := by
  cases h with
  | common h => exact absurd he (ha.stray _ (mem_keys_of_common h) _ ho v')
  | moved h => exact absurd he (ha.stray _ (mem_keys_of_position h) _ ho v')
  | own h =>
    obtain ⟨rfl, htitle⟩ := strayName_inj he
    rw [ha.eq_of_title (mem_keys_of_own h) ho htitle]

end Kept

theorem kept_of_mem_sharedSaves {e : String × ByteArray} (he : e ∈ d.sharedSaves) :
    ∃ v, d.Kept v e := by
  rw [sharedSaves, mem_append, mem_map, mem_flatMap] at he
  rcases he with ⟨key, hkey, rfl⟩ | ⟨key, hkey, he⟩
  · exact ⟨.kabuto, .common hkey⟩
  · obtain ⟨v, -, rfl⟩ := mem_map.1 he
    exact ⟨v, .own (.inl hkey)⟩

theorem Strays.kept {before after : Table (Array UInt8) String} {alone : List (String × ByteArray)}
    {ls : List Assembly.Line}
    (h : d.Strays v d.comparison.classes.missing before after alone ls) {e : String × ByteArray}
    (he : e ∈ d.versionSaves v ++ alone) : d.Kept v e := by
  rw [versionSaves, mem_append, mem_append, mem_map, mem_map] at he
  rcases he with (⟨key, hkey, rfl⟩ | ⟨key, hkey, rfl⟩) | he
  · exact .moved hkey
  · exact .own (.inr (.inl hkey))
  · obtain ⟨key, hkey, t, hfound, rfl⟩ := h.saves e he
    rw [← storedOf_of_found hfound]
    exact .own (.inr (.inr hkey))

namespace Outcome

variable {table : List String} {lines : Version → List Assembly.Line}
  {written : Version → Table (Array UInt8) String} {alone : Version → List (String × ByteArray)}

section

variable (h : d.Outcome w table lines written alone) {data : Array UInt8}

include h

theorem kept_of_mem_log {e : String × ByteArray} (he : e ∈ d.log alone) : ∃ v, d.Kept v e := by
  obtain ⟨_, hfirst⟩ := h.first
  obtain ⟨_, hsecond⟩ := h.second
  rw [log, mem_append, mem_append] at he
  rcases he with (he | he) | he
  · exact kept_of_mem_sharedSaves he
  · exact ⟨_, hfirst.kept he⟩
  · exact ⟨_, hsecond.kept he⟩

theorem read_of_lookup (ha : d.Apart) (hlast : (d.log alone).reverse.lookup stem = some bytes) :
    w.read (Path.join d.folders.stored (stem ++ ".malias")) = .ok bytes := by
  obtain ⟨before, hsaved⟩ := h.saved
  refine hsaved.read (fun e he => ?_) hlast
  obtain ⟨v, hkept⟩ := h.kept_of_mem_log he
  exact hkept.slash ha

theorem read_of_mem (ha : d.Apart) (hmem : (stem, bytes) ∈ d.log alone)
    (hall : ∀ v bytes', d.Kept v (stem, bytes') → bytes' = bytes) :
    w.read (Path.join d.folders.stored (stem ++ ".malias")) = .ok bytes := by
  refine h.read_of_lookup ha (lookup_reverse_eq hmem fun bytes' hmem' => ?_)
  obtain ⟨v, hkept⟩ := h.kept_of_mem_log hmem'
  exact hall v bytes' hkept

theorem read_common (ha : d.Apart) (hs : d.Sound images entries)
    (ho : o ∈ d.comparison.classes.common) :
    w.read (Path.join d.folders.stored (d.title o ++ ".malias")) = .ok (d.storedOf .kabuto o) := by
  refine h.read_of_mem ha ?_ fun v bytes' hkept =>
    ((hkept.of_title ha (mem_keys_of_common ho) rfl).resolve_right fun hmoved =>
      notMem_position_of_common hs.nodup ho hmoved.1).2
  have hmem : (d.title o, d.storedOf .kabuto o) ∈ d.sharedSaves :=
    mem_append_left _ (mem_map.2 ⟨o, ho, rfl⟩)
  exact mem_append_left _ (mem_append_left _ hmem)

theorem read_own (ha : d.Apart) (ho : o ∈ d.comparison.classes.keys)
    (hmem : (d.strayName v o, d.storedOf v o) ∈ d.log alone) :
    w.read (Path.join d.folders.stored (d.strayName v o ++ ".malias")) = .ok (d.storedOf v o) :=
  h.read_of_mem ha hmem fun _ _ hkept => hkept.eq_of_own ha ho rfl

theorem read_moved (ha : d.Apart) (hs : d.Sound images entries)
    (ho : o ∈ d.comparison.classes.position) :
    w.read (Path.join d.folders.stored (d.title o ++ ".malias")) =
      .ok (d.storedOf .kuwagata o) := by
  obtain ⟨_, hstrays⟩ := h.second
  have hmem : (d.title o, d.storedOf .kuwagata o) ∈ d.versionSaves .kuwagata ++ alone .kuwagata :=
    mem_append_left _ (mem_append_left _ (mem_map.2 ⟨o, ho, rfl⟩))
  -- the versions disagree on this file, so only what the second one stores is looked at
  have hlast := lookup_reverse_eq hmem fun bytes' hmem' =>
    (((hstrays.kept hmem').of_title ha (mem_keys_of_position ho) rfl).resolve_left fun hcommon =>
      notMem_position_of_common hs.nodup hcommon.1 ho).2
  refine h.read_of_lookup ha ?_
  rw [log, reverse_append, lookup_append, hlast, Option.some_or]

/-! ### Tilesets that one version has alone -/

theorem find?_second (hfile : (written v).find? data = some file) :
    (written .kuwagata).find? data = some file := by
  obtain ⟨_, hstrays⟩ := h.second
  cases v with
  | kabuto => exact hstrays.grows data file hfile
  | kuwagata => exact hfile

theorem exists_origin (hfile : (written v).find? data = some file) :
    ∃ v' k t, k ∈ d.comparison.classes.missing ∧ (d.survey v').found.find? k = some t ∧
      t.tiles.data = data ∧ file = d.strayName v' k ∧ (file, t.tiles.stored) ∈ d.log alone := by
  obtain ⟨_, hfirst⟩ := h.first
  obtain ⟨_, hsecond⟩ := h.second
  have hkabuto : (written .kabuto).find? data = some file →
      ∃ v' k t, k ∈ d.comparison.classes.missing ∧ (d.survey v').found.find? k = some t ∧
        t.tiles.data = data ∧ file = d.strayName v' k ∧ (file, t.tiles.stored) ∈ d.log alone := by
    intro hfile
    rcases hfirst.origin data file hfile with hbefore | ⟨k, hk, t, hfound, hdata, hname, hmem⟩
    · cases hbefore
    · refine ⟨.kabuto, k, t, hk, hfound, hdata, hname, ?_⟩
      exact mem_append_left _ (mem_append_right _ (mem_append_right _ hmem))
  rcases hsecond.origin data file (h.find?_second hfile) with hbefore | ⟨k, hk, t, hfound, hdata,
    hname, hmem⟩
  · exact hkabuto hbefore
  · refine ⟨.kuwagata, k, t, hk, hfound, hdata, hname, ?_⟩
    exact mem_append_right _ (mem_append_right _ hmem)

theorem exists_fileIn (ho : o ∈ d.comparison.classes.missing)
    (hfound : (d.survey v).found.find? o = some t) :
    ∃ file, (written .kuwagata).find? t.tiles.data = some file ∧
      (o, file) ∈ d.sections v (written v) ∧ (written v).find? t.tiles.data = some file := by
  obtain ⟨before, _, hstrays⟩ : ∃ before ls, d.Strays v d.comparison.classes.missing before
      (written v) (alone v) ls := by
    cases v with
    | kabuto => exact ⟨_, h.first⟩
    | kuwagata => exact ⟨_, h.second⟩
  obtain ⟨file, hfile⟩ := hstrays.present o ho t hfound
  refine ⟨file, h.find?_second hfile, mem_append_right _ (mem_map.2 ⟨o, ?_, ?_⟩), hfile⟩
  · refine mem_filter.2 ⟨ho, ?_⟩
    rw [Table.contains, hfound]
    rfl
  · rw [fileIn, hfound, Option.bind_some, hfile]
    rfl

end

theorem exists_pair (h : Paired d.first.found d.second.found true o) (v v' : Version) :
    ∃ t t', (d.survey v).found.find? o = some t ∧ (d.survey v').found.find? o = some t' ∧
      t'.tiles.data = t.tiles.data := by
  obtain ⟨a, b, ha, hb, hdata⟩ := h
  have hsame : a.tiles.data = b.tiles.data := eq_of_beq hdata
  cases v <;> cases v'
  · exact ⟨a, a, ha, ha, rfl⟩
  · exact ⟨a, b, ha, hb, hsame.symm⟩
  · exact ⟨b, a, hb, ha, hsame⟩
  · exact ⟨b, b, hb, hb, rfl⟩

theorem mem_log_of_version {e : String × ByteArray} (he : e ∈ d.versionSaves v ++ alone v) :
    e ∈ d.log alone := by
  cases v with
  | kabuto => exact mem_append_left _ (mem_append_right _ he)
  | kuwagata => exact mem_append_right _ he

theorem forVersion_strayName (ha : d.Apart) (ho : o ∈ d.comparison.classes.keys)
    (v v' : Version) : forVersion v (d.strayName v' o) = d.strayName v' o := by
  refine Assembly.forVersion_eq_self (notMem_strayName (fun v => ?_) (ha.brace o ho) v') v
  cases v <;> decide

/-- **What the file of a section holds**: the stored form of a tileset with the same tiles, which is
that of the same key unless a version has the tileset alone. -/
theorem exists_stored (h : d.Outcome w table lines written alone) (ha : d.Apart)
    (hs : d.Sound images entries) (hfile : (o, file) ∈ d.sections v (written v)) :
    '/' ∉ file.toList ∧ ∃ v' k t t', (d.survey v).found.find? o = some t ∧
      (d.survey v').found.find? k = some t' ∧ t'.tiles.data = t.tiles.data ∧
      (k = o ∨ o ∈ d.comparison.classes.missing ∧ k ∈ d.comparison.classes.missing) ∧
      w.read (Path.join d.folders.stored (forVersion v file ++ ".malias")) =
        .ok t'.tiles.stored := by
  obtain ⟨t, hfound⟩ := hs.mem_map_fst_sections.1 (mem_map_of_mem hfile)
  have ho : o ∈ d.comparison.classes.keys := hs.mem_keys_iff.2 ⟨v, t, hfound⟩
  have hslash := ha.slash o ho
  have hplain : forVersion v (d.title o) = d.title o :=
    Assembly.forVersion_eq_self (ha.brace o ho) v
  -- a tileset with the name of its version, whatever its class
  have hown : (d.strayName v o, d.storedOf v o) ∈ d.log alone →
      w.read (Path.join d.folders.stored (d.strayName v o ++ ".malias")) =
        .ok t.tiles.stored := fun hmem => storedOf_of_found hfound ▸ h.read_own ha ho hmem
  simp only [sections, mem_append, mem_map, Prod.mk.injEq] at hfile
  -- the sections follow the classes: common, tiles, position, both and missing
  rcases hfile with (((⟨o, hclass, rfl, rfl⟩ | ⟨o, hclass, rfl, rfl⟩) | ⟨o, hclass, rfl, rfl⟩) |
    ⟨o, hclass, rfl, rfl⟩) | ⟨o, hclass, rfl, rfl⟩
  · obtain ⟨t, t', hfound, hfound', hdata⟩ := exists_pair (hs.sorted.common o hclass) v .kabuto
    refine ⟨hslash, .kabuto, o, t, t', hfound, hfound', hdata, .inl rfl, ?_⟩
    rw [hplain, h.read_common ha hs hclass, storedOf_of_found hfound']
  · refine ⟨?_, v, o, t, t, hfound, hfound, rfl, .inl rfl, ?_⟩
    · have hmark : '/' ∉ "_\x7bGAMEVERSION\x7d".toList := by decide
      rw [String.toList_append, mem_append, not_or]
      exact ⟨hslash, hmark⟩
    · rw [Assembly.forVersion_mark (ha.brace o ho)]
      refine hown (mem_append_left _ (mem_append_left _ (mem_append_right _ ?_)))
      refine mem_flatMap.2 ⟨o, hclass, mem_map.2 ⟨v, ?_, rfl⟩⟩
      cases v <;> decide
  · obtain ⟨t, t', hfound, hfound', hdata⟩ := exists_pair (hs.sorted.position o hclass) v .kuwagata
    refine ⟨hslash, .kuwagata, o, t, t', hfound, hfound', hdata, .inl rfl, ?_⟩
    rw [hplain, h.read_moved ha hs hclass, storedOf_of_found hfound']
  · refine ⟨slash_strayName ha ho v, v, o, t, t, hfound, hfound, rfl, .inl rfl, ?_⟩
    rw [forVersion_strayName ha ho]
    exact hown (mem_log_of_version (mem_append_left _ (mem_append_right _
      (mem_map.2 ⟨o, hclass, rfl⟩))))
  · -- only here the file may belong to another key: the first tileset with these tiles named it
    obtain ⟨hmissing, -⟩ := mem_filter.1 hclass
    obtain ⟨file, -, -, hwritten⟩ := h.exists_fileIn hmissing hfound
    obtain ⟨v', k, t', hk, hfound', hdata, rfl, hmem⟩ := h.exists_origin hwritten
    have hfile : d.fileIn v (written v) o = d.strayName v' k := by
      rw [fileIn, hfound, Option.bind_some, hwritten]
      rfl
    have hkeys := mem_keys_of_missing hk
    rw [hfile, forVersion_strayName ha hkeys]
    refine ⟨slash_strayName ha hkeys v', v', k, t, t', hfound, hfound', hdata, .inr ⟨hmissing, hk⟩,
      ?_⟩
    rw [← storedOf_of_found hfound'] at hmem ⊢
    exact h.read_own ha hkeys hmem

end Outcome

end Dump

end Tileset

end Cartridge
