import Cartridge.Proofs.Tilemap.Tables

/-!
# Closed tables of maps

A dump of maps taken apart, and whether its source names anything that is not there.

Main result: `closed_iff`.
-/

namespace Cartridge.Tilemap

open Assembly Job
open Workspace

variable {t : Target} {banks addresses count : Int} {w w' u₁ u₂ : Workspace} {v : Version}
  {s : Version → Survey} {differs ids : List MapId} {p : Progress}

/-! ### Paths -/

def Target.versionPath (t : Target) (v : Version) : String :=
  Path.join t.source (v.name ++ "/" ++ t.label ++ "_table.asm")

def Target.namesPath (t : Target) : String :=
  Path.join t.resources ("meta_" ++ t.label ++ "_files.tbl")

theorem endsIn_sharedPath (t : Target) : EndsIn (plainPath t.sharedPath) "_table.asm" :=
  endsIn_plainPath_join _ (endsIn_append ..) (by decide)

theorem endsIn_versionPath (t : Target) (v : Version) :
    EndsIn (plainPath (t.versionPath v)) "_table.asm" :=
  endsIn_plainPath_join _ (endsIn_append ..) (by decide)

theorem endsIn_namesPath (t : Target) : EndsIn (plainPath t.namesPath) "_files.tbl" :=
  endsIn_plainPath_join _ (endsIn_append ..) (by decide)

theorem namesPath_ne_image (t : Target) (v : Version) :
    plainPath v.image ≠ plainPath t.namesPath := by
  intro heq
  exact (heq ▸ endsIn_image v).not_endsIn (by decide) (endsIn_namesPath t)

theorem versionPath_eq (t : Target) (v : Version) :
    t.versionPath v = Path.join t.source (v.name ++ "/" ++ (t.label ++ "_table.asm")) := by
  rw [Target.versionPath, String.append_assoc]

theorem sharedPath_ne_versionPath (h : '/' ∉ t.label.toList) (v : Version) :
    plainPath t.sharedPath ≠ plainPath (t.versionPath v) := by
  rw [versionPath_eq]
  exact plainPath_join_ne (.append h (by decide)) (fileName_version v)

theorem versionPath_ne (h : '/' ∉ t.label.toList) :
    plainPath (t.versionPath .kabuto) ≠ plainPath (t.versionPath .kuwagata) := by
  rw [versionPath_eq, versionPath_eq]
  intro heq
  cases plainPath_version_inj (.append h (by decide)) heq

/-! ### The files of a dump -/

/-- The surveys `s` of the images of a workspace, of the tables that the first image lists. -/
def Surveyed (banks addresses count : Int) (w : Workspace) (s : Version → Survey) : Prop :=
  ∃ image tables, w.read Version.kabuto.image = .ok image ∧
    readTables image banks addresses count = .ok tables ∧
    ∀ v, ∃ image, w.read v.image = .ok image ∧ Survey.read image tables = .ok (s v)

theorem of_writeVersions (hlabel : '/' ∉ t.label.toList)
    (hkabuto : (Job.writeText (t.versionPath .kabuto)
      (render (versionLines t p.first))).on w = (.ok (), u₁))
    (hkuwagata : (Job.writeText (t.versionPath .kuwagata)
      (render (versionLines t p.second))).on u₁ = (.ok (), u₂))
    (hsame : SameBut (· = plainPath t.namesPath) u₂ w') :
    (∀ data, w.read t.sharedPath = .ok data → w'.read t.sharedPath = .ok data) ∧
      ∀ v, w'.read (t.versionPath v) =
        .ok (render (versionLines t (p.definitions v))).toUTF8 := by
  have hsame₁ := of_writeFile hkabuto
  have hsame₂ := of_writeFile hkuwagata
  have hread₁ := read_of_writeFile hkabuto
  have hread₂ := read_of_writeFile hkuwagata
  -- a source is no file of names
  have hnames : ∀ path, EndsIn (plainPath path) "_table.asm" →
      plainPath path ≠ plainPath t.namesPath := by
    intro path hpath heq
    rw [heq] at hpath
    exact hpath.not_endsIn (by decide) (endsIn_namesPath t)
  refine ⟨fun data hdata => ?_, fun v => ?_⟩
  · have hshared₁ := hsame₁.read hdata (sharedPath_ne_versionPath hlabel .kabuto)
    have hshared₂ := hsame₂.read hshared₁ (sharedPath_ne_versionPath hlabel .kuwagata)
    exact hsame.read hshared₂ (hnames _ (endsIn_sharedPath t))
  · cases v with
    | kabuto =>
      exact hsame.read (hsame₂.read hread₁ (versionPath_ne hlabel))
        (hnames _ (endsIn_versionPath t _))
    | kuwagata => exact hsame.read hread₂ (hnames _ (endsIn_versionPath t _))

/-- **A dump that ends**: the surveys that it compares, and the tables after all maps. -/
theorem exists_of_dump (h : (dump t banks addresses count).on w = (.ok (), w'))
    (hlabel : '/' ∉ t.label.toList) :
    ∃ (s : Version → Survey) (differs ids : List MapId) (ns : List Nat) (p : Progress),
      Surveyed banks addresses count w s ∧
      Compared (s .kabuto) (s .kuwagata) differs ids ∧
      p.After t (versionsOf s differs ids) ns (s .kabuto).held.entries ∧
      (∀ e ∈ (s .kabuto).held.entries, e.1.table ∈ ns) ∧
      w'.read t.sharedPath = .ok (render ([.inclusion "game/src/common/macros.asm"] ++
        p.lines ++ p.closing t)).toUTF8 ∧
      ∀ v, w'.read (t.versionPath v) =
        .ok (render (versionLines t (p.definitions v))).toUTF8 := by
  simp only [dump, Version.all, List.forIn_cons, List.forIn_nil, on_bind_ok_iff, on_pure,
    on_lift, Prod.mk.injEq, Except.ok.injEq, on_readFile_ok_iff] at h
  obtain ⟨given, u, hgiven, image, _, ⟨himage, rfl⟩, tables, _, ⟨htables, rfl⟩, image₁, _,
    ⟨himage₁, rfl⟩, s₁, _, ⟨hs₁, rfl⟩, image₂, _, ⟨himage₂, rfl⟩, s₂, _, ⟨hs₂, rfl⟩, differs, _,
    ⟨hdiffers, rfl⟩, ids, _, ⟨hids, rfl⟩, key, v₁, hcreate, p, v₂, hmaps, ⟨⟩, v₃, hshared, h⟩ := h
  obtain ⟨_, _, ⟨_, _, ⟨⟨⟩, v₄, hkabuto, rfl, rfl⟩, h⟩, hlist⟩ := h
  simp only [on_bind_ok_iff, on_pure, Prod.mk.injEq, Except.ok.injEq] at h
  obtain ⟨_, _, ⟨⟨⟩, v₅, hkuwagata, rfl, rfl⟩, h⟩ := h
  obtain ⟨-, rfl⟩ := Prod.mk.inj h
  obtain ⟨hnamed, -⟩ := of_readOrCreate (.bind (.readText _) fun _ => .lift _) hgiven
  have hread : ∀ (v : Version) image, _ → w.read v.image = .ok image := fun v image h =>
    hnamed.symm.read h (namesPath_ne_image t v)
  have hcompared : Compared s₁ s₂ differs ids :=
    ⟨Survey.sound_read hs₁, Survey.sound_read hs₂, hdiffers, hids⟩
  have hsorted : s₁.held.entries.Pairwise fun e e' => e.1.table ≤ e'.1.table := by
    have hkeys := hcompared.firstSound.sorted
    rwa [Table.keys, List.pairwise_map] at hkeys
  obtain ⟨hsame, ns, hafter, hns⟩ :=
    (Progress.After.empty t _).run (by simp) hsorted hmaps
  -- the maps go to other files, so the shared source is still empty when it is filled
  obtain ⟨-, -, hsharedRead⟩ := of_create_append hcreate hsame hshared
    ((endsIn_sharedPath t).not_endsIn (by decide))
  have hlast : SameBut (· = plainPath t.namesPath) v₅ w' := by
    split at hlist
    · exact of_writeFile hlist
    · cases hlist
      exact .refl _ _
  obtain ⟨hsharedLast, hown⟩ := of_writeVersions hlabel hkabuto hkuwagata hlast
  refine ⟨(⟨s₁, s₂, ids⟩ : Versions).survey, differs, ids, ns, p, ?_, hcompared, hafter, ?_,
    hsharedLast _ hsharedRead, hown⟩
  · refine ⟨image, tables, hread .kabuto image himage, htables, fun v => ?_⟩
    cases v with
    | kabuto => exact ⟨image₁, hread .kabuto image₁ himage₁, hs₁⟩
    | kuwagata => exact ⟨image₂, hread .kuwagata image₂ himage₂, hs₂⟩
  · exact fun e he => (hns _).2 ⟨e, he, rfl⟩

/-! ### Closed tables -/

/-- What the source files of a dump hold: the shared source has a pointer for each map and takes
the maps `ids`, which are not the same in both versions, from constants. -/
structure Dumped (t : Target) (w : Workspace) (s : Version → Survey) (ids : List MapId)
    (shared : List Line) (own : Version → List Line) : Prop where
  toldApart : versionedIds (s .kabuto) (s .kuwagata) = .ok ids
  sharedFile : w.read t.sharedPath = .ok (render shared).toUTF8
  ownFile : ∀ v, w.read (t.versionPath v) = .ok (render (own v)).toUTF8
  pointers : words shared = (s .kabuto).held.entries.map fun e =>
    t.nameOf (leadsTo ⟨s .kabuto, s .kuwagata, ids⟩ e)
  taken : constants shared =
    ((s .kabuto).held.keys.filter fun id => ids.contains id).map t.constantOf

theorem mem_defines_versionLines {table : Table String String} {k : String} :
    "c" ++ t.title ++ k ∈ defines (versionLines t table) ↔ table.contains k := by
  have hdefines : defines (versionLines t table) = table.keys.map ("c" ++ t.title ++ ·) := by
    simp [versionLines, defines, Table.keys, List.filterMap_map, Function.comp_def]
  rw [hdefines, Table.contains, Option.isSome_iff_exists, ← Table.mem_keys_iff]
  simp

theorem constantOf_mem_iff {vs : Versions} {ns : List Nat} {id : MapId}
    (hafter : p.After t vs ns vs.first.held.entries) (hkey : id ∈ vs.first.held.keys)
    (hid : id ∈ vs.ids) :
    t.constantOf id ∈ defines (versionLines t (p.definitions v)) ↔ HasFile vs v id := by
  rw [Target.constantOf, mem_defines_versionLines, hafter.defined]
  constructor
  · rintro ⟨e, -, -, htext, hfile⟩
    cases Mark.text_inj htext
    exact hfile
  · intro hfile
    obtain ⟨e, he, rfl⟩ := List.mem_map.1 hkey
    exact ⟨e, he, List.contains_iff_mem.2 hid, rfl, hfile⟩

/-- **Closed tables.**  Every name in the tables is defined exactly once.  The constants are defined
in a version exactly if the maps that it ends with are ends in every version that has them. -/
theorem closed_iff (h : (dump t banks addresses count).on w = (.ok (), w'))
    (hlabel : '/' ∉ t.label.toList) :
    ∃ (s : Version → Survey) (ids : List MapId) (shared : List Assembly.Line)
      (own : Version → List Assembly.Line),
      Surveyed banks addresses count w s ∧ Dumped t w' s ids shared own ∧
      (∀ name ∈ words shared, (labels shared).count name = 1) ∧
      ∀ v, (∀ c ∈ constants shared, c ∈ defines (own v)) ↔
        ∀ id, (s v).IsEnd id → ∀ v', id ∈ (s v').held.keys → (s v').IsEnd id := by
  obtain ⟨s, differs, ids, ns, p, hs, hcompared, hafter, hns, hshared, hown⟩ :=
    exists_of_dump h hlabel
  have hpointers : words ([.inclusion "game/src/common/macros.asm"] ++ p.lines ++ p.closing t) =
      words p.lines := by
    rw [Assembly.words_append, words_closing, List.append_nil]
    rfl
  have htaken : constants ([.inclusion "game/src/common/macros.asm"] ++ p.lines ++ p.closing t) =
      ((s .kabuto).held.keys.filter fun id => ids.contains id).map t.constantOf := by
    rw [Table.keys, List.filter_map, List.map_map]
    exact hafter.constants
  refine ⟨s, ids, _, _, hs, ⟨hcompared.ids, hshared, hown, hpointers.trans hafter.words, htaken⟩,
    fun name hname => ?_, fun v => ?_⟩
  · rw [hpointers] at hname
    exact count_labels hafter hns hcompared hname
  · have hrecorded : ∀ id ∈ (s .kabuto).held.keys, id ∈ ids →
        ∀ v, Recorded (versionsOf s differs ids) v id := by
      intro id hkey hid
      obtain ⟨e, he, rfl⟩ := List.mem_map.1 hkey
      exact hafter.recorded e he (List.contains_iff_mem.2 hid)
    rw [← hasFiles_iff hcompared hrecorded, htaken, List.forall_mem_map]
    simp only [List.mem_filter, List.contains_iff_mem, and_imp]
    refine forall₃_congr fun id hkey hid => ?_
    exact constantOf_mem_iff hafter hkey hid

/-! ### A map that only one version has -/

def sampleTarget : Target := ⟨"maps", "raw", "out", "res", "v"⟩

def sampleImage (pointers : List Nat) (maps : List UInt8) : ByteArray :=
  ⟨([1, 4, 0, 0] ++ pointers.flatMap (Bytes.wordBytes ·) ++ maps).toArray⟩

/-- The first version has two maps and the second version only one. -/
def sampleWorkspace : Workspace where
  files := .ofList
    [("baserom_kabuto.gbc", sampleImage [12, 15, 18, 18] [0, 1, 255, 0, 2, 255, 255]),
      ("baserom_kuwagata.gbc", sampleImage [12, 15, 15, 15] [0, 1, 255, 255])]
  folders := ["", "raw", "pre", "res", "v", "v/kabuto", "v/kuwagata"]

theorem on_dump_sample : (dump sampleTarget 0 1 1).on sampleWorkspace =
    (.ok (), ((dump sampleTarget 0 1 1).on sampleWorkspace).2) :=
  on_eq_of_fst (by decide +kernel)

theorem closed_iff_sample :
    ∃ w', (dump sampleTarget 0 1 1).on sampleWorkspace = (.ok (), w') ∧
      '/' ∉ sampleTarget.label.toList ∧
      ∃ (s : Version → Survey) (ids : List MapId) (shared : List Assembly.Line)
        (own : Version → List Assembly.Line),
        Surveyed 0 1 1 sampleWorkspace s ∧ Dumped sampleTarget w' s ids shared own ∧
        (∀ name ∈ words shared, (labels shared).count name = 1) ∧
        ∀ v, (∀ c ∈ constants shared, c ∈ defines (own v)) ↔
          ∀ id, (s v).IsEnd id → ∀ v', id ∈ (s v').held.keys → (s v').IsEnd id :=
  ⟨_, on_dump_sample, by decide, closed_iff on_dump_sample (by decide)⟩

theorem eq_ok_of_toList {x : Except Fault ByteArray} {bytes : ByteArray}
    (h : (·.data.toList) <$> x = .ok bytes.data.toList) : x = .ok bytes := by
  obtain ⟨bytes', rfl, heq⟩ := map_ok_iff.1 h
  rw [ByteArray.ext (Array.toList_inj.1 heq)]

def sampleShared : List Line :=
  [.inclusion "game/src/common/macros.asm", .blank,
    .place "Maps Table 00" "ROMX[$0004], BANK[$01]", .label "MapsTable00",
    .notedWord "Maps00_00" "00", .notedWord "Maps00_01_GAMEVERSION" "01",
    .notedWord "MapsTable00Terminator" "02", .notedWord "MapsTable00Terminator" "03",
    .label "Maps00_00", .binary "\"out/0000.map\"",
    .label "Maps00_01_GAMEVERSION", .binary "cMaps00_01_GAMEVERSION",
    .label "MapsTable00Terminator", .blank]

/-- The constant of the map that only the first version has is not defined in the second. -/
theorem exists_undefined_constant :
    ∃ w' shared own, (dump sampleTarget 0 1 1).on sampleWorkspace = (.ok (), w') ∧
      w'.read sampleTarget.sharedPath = .ok (Assembly.render shared).toUTF8 ∧
      w'.read (sampleTarget.versionPath .kuwagata) = .ok (Assembly.render own).toUTF8 ∧
      "cMaps00_01_GAMEVERSION" ∈ constants shared ∧
      "cMaps00_01_GAMEVERSION" ∉ defines own := by
  refine ⟨_, sampleShared, [.blank, .inclusion "v/maps_table.asm"], on_dump_sample, ?_, ?_, ?_, ?_⟩
  · exact eq_ok_of_toList (by decide +kernel)
  · exact eq_ok_of_toList (by decide +kernel)
  · decide +kernel
  · decide +kernel

end Cartridge.Tilemap
