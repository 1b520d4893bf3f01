import Cartridge.Proofs.Tileset.Listings

/-!
# The sources of the versions

The source of a version takes in the shared one.  Every tileset of the version has one section in
them, where its file stands under its own name and under those of the entries that lead to it.

Main results: `exists_outcome` and `Dump.filesAt_title`.
-/

open List

namespace Cartridge

open Assembly

open Assembly (calls render)

/-! ### Files at names -/

namespace Assembly

def Line.marks (name : String) (here : Bool) : Line → Bool
  | blank | remark _ => here
  | label other | notedLabel other _ | localLabel other => here || name == other
  | _ => false

/-- The files that are taken in where a name stands; `here` tells whether it stands in front. -/
def filesFrom (name : String) : Bool → List Line → List String
  | _, [] => []
  | true, .binary file :: lines => file :: filesFrom name false lines
  | here, line :: lines => filesFrom name (line.marks name here) lines

/-- The files that are taken in where a name stands. -/
def filesAt (name : String) (lines : List Line) : List String := filesFrom name false lines

/-- The name stands at the files `files` in the lines, whatever comes before and after. -/
def Finds (name : String) (lines : List Line) (files : List String) : Prop :=
  ∀ here rest, ∃ here', filesFrom name here (lines ++ rest) = files ++ filesFrom name here' rest

variable {name : String} {lines lines' : List Line} {files files' : List String}

theorem Finds.filesAt_eq (h : Finds name lines files) : filesAt name lines = files := by
  obtain ⟨here', hfiles⟩ := h false []
  rwa [append_nil, filesFrom, append_nil] at hfiles

theorem Finds.append (h : Finds name lines files) (h' : Finds name lines' files') :
    Finds name (lines ++ lines') (files ++ files') := by
  intro here rest
  obtain ⟨middle, hfirst⟩ := h here (lines' ++ rest)
  obtain ⟨here', hsecond⟩ := h' middle rest
  exact ⟨here', by rw [append_assoc, hfirst, hsecond, append_assoc]⟩

theorem filesFrom_cons {line : Line} (hline : ∀ file, line ≠ .binary file) (here : Bool) :
    filesFrom name here (line :: lines) = filesFrom name (line.marks name here) lines := by
  cases line with
  | binary file => exact absurd rfl (hline file)
  | _ => cases here <;> rfl

theorem finds_nil (h : ∀ file, .binary file ∉ lines) : Finds name lines [] := by
  intro here rest
  induction lines generalizing here with
  | nil => exact ⟨here, rfl⟩
  | cons line lines ih =>
    have hline : ∀ file, line ≠ .binary file := by
      rintro file rfl
      exact h file mem_cons_self
    rw [cons_append, filesFrom_cons hline]
    exact ih (fun file hfile => h file (mem_cons_of_mem _ hfile)) _

theorem filesFrom_map_label (others : List String) (here : Bool) :
    filesFrom name here (others.map .label ++ lines) =
      filesFrom name (here || others.contains name) lines := by
  induction others generalizing here with
  | nil => simp
  | cons other others ih =>
    rw [map_cons, cons_append, filesFrom_cons (by simp), ih, Line.marks,
      contains_cons, Bool.or_assoc]

end Assembly

namespace Tileset

open Assembly (Finds filesAt)

namespace Dump

variable {d : Dump} {f : Folders} {file : String} {tables : List Assembly.Line}
  {written : Table (Array UInt8) String}

theorem finds_block (name spot title : String) (others : List String) (file : String) :
    Finds name (d.block spot title others file)
      (if name ∈ title :: others then [d.storedPath file] else []) := by
  intro here rest
  refine ⟨false, ?_⟩
  rw [block, append_assoc]
  simp only [cons_append, nil_append]
  rw [filesFrom_cons (by simp), filesFrom_cons (by simp),
    filesFrom_map_label]
  have hmarked : ((Line.label title).marks name
      ((Line.place ("Tileset Data " ++ title) spot).marks name here) ||
        others.contains name) = (title :: others).contains name := by
    rfl
  rw [hmarked]
  by_cases hname : name ∈ title :: others
  · rw [contains_iff_mem.2 hname, if_pos hname]
    rfl
  · rw [Bool.eq_false_iff.2 fun h => hname (contains_iff_mem.1 h), if_neg hname]
    rfl

/-! ### Surveys -/

/-- The surveys of a dump are those of images with the given entries, and they are compared. -/
structure Sound (d : Dump) (images : Version → ByteArray) (entries : Version → List Listing) :
    Prop where
  survey : ∀ v, (d.survey v).Sound (images v) (entries v)
  length : ∀ v, (entries v).length = entryCount
  comparison : d.comparison = .ofSurveys d.first d.second

theorem Of.exists_sound {w : Workspace} (hd : d.Of f w) :
    ∃ images entries, (∀ v : Version, w.read v.image = .ok (images v)) ∧
      (∀ v, readListings (images v) = .ok (entries v)) ∧ d.Sound images entries := by
  choose images himages hsurveys using hd.survey
  have hsound : ∀ v, ∃ ls, readListings (images v) = .ok ls ∧ (d.survey v).Sound (images v) ls :=
    fun v => sound_read (hsurveys v)
  choose entries hentries hsound using hsound
  exact ⟨images, entries, himages, hentries, hsound, fun v => length_readListings (hentries v),
    hd.comparison⟩

variable {images : Version → ByteArray} {entries : Version → List Listing} {v : Version}
  {key o i k key' : Nat} {t : Found}

namespace Sound

section

variable (h : d.Sound images entries)

include h

theorem sorted : d.comparison.classes.Sorted d.first.found
    d.second.found (allKeys d.first d.second) := by
  rw [h.comparison]
  exact sorted_comparison d.first d.second

theorem nodup_allKeys : (allKeys d.first d.second).Nodup :=
  Tileset.nodup_allKeys (h.survey .kabuto).keys (h.survey .kuwagata).keys

theorem nodup : d.comparison.classes.keys.Nodup :=
  h.sorted.perm.nodup_iff.2 h.nodup_allKeys

theorem mem_keys_iff : key ∈ d.comparison.classes.keys ↔
    ∃ v t, (d.survey v).found.find? key = some t := by
  rw [h.sorted.perm.mem_iff, mem_allKeys_iff, Option.isSome_iff_exists, Option.isSome_iff_exists]
  constructor
  · rintro (hfirst | hsecond)
    · exact ⟨.kabuto, hfirst⟩
    · exact ⟨.kuwagata, hsecond⟩
  · rintro ⟨v, hfound⟩
    cases v with
    | kabuto => exact .inl hfound
    | kuwagata => exact .inr hfound

theorem exists_keyOf (hkey : key ∈ d.comparison.classes.keys) :
    ∃ i < entryCount, key = keyOf i := by
  obtain ⟨v, t, hfound⟩ := h.mem_keys_iff.1 hkey
  obtain ⟨i, l, rfl, hl, -⟩ := (h.survey v).exists_listing hfound
  exact ⟨i, h.length v ▸ (List.getElem?_eq_some_iff.1 hl).1, rfl⟩

theorem notMem_addressTableEnd : addressTableEnd ∉ d.comparison.classes.keys := by
  intro hmem
  obtain ⟨i, hi, hkey⟩ := h.exists_keyOf hmem
  exact keyOf_ne_addressTableEnd hi hkey.symm

theorem owner_cases (v : Version) (hi : i < entryCount) :
    (d.survey v).owner? (keyOf i) = some addressTableEnd ∨
      ∃ o t, (d.survey v).owner? (keyOf i) = some o ∧ (d.survey v).found.find? o = some t := by
  obtain ⟨l, hl⟩ : ∃ l, (entries v)[i]? = some l := ⟨_, getElem?_eq_getElem (h.length v ▸ hi)⟩
  rcases (h.survey v).exists_owner hl with ⟨-, howner⟩ | ⟨o, t, -, howner, hfound, -⟩
  · exact .inl howner
  · exact .inr ⟨o, t, howner, hfound⟩

theorem mem_missing (hkey : key ∈ d.comparison.classes.keys)
    (hfound : (d.survey v).found.find? key = none) : key ∈ d.comparison.classes.missing := by
  have hnot : ∀ same, ¬Paired d.first.found d.second.found same key := by
    rintro same ⟨a, b, ha, hb, -⟩
    cases v with
    | kabuto => cases ha.symm.trans hfound
    | kuwagata => cases hb.symm.trans hfound
  rcases Classes.mem_keys_iff.1 hkey with hkey | hkey | hkey | hkey | hkey
  · exact absurd (h.sorted.common key hkey) (hnot _)
  · exact absurd (h.sorted.tiles key hkey) (hnot _)
  · exact absurd (h.sorted.position key hkey) (hnot _)
  · exact absurd (h.sorted.both key hkey) (hnot _)
  · exact hkey

/-! ### Other names -/

theorem aliases_eq (v : Version) :
    d.aliases v = aliasesOf (sharedKeys (d.survey v) d.comparison.classes.missing) := by
  unfold aliases
  rw [h.comparison, missing_comparison]
  cases v with
  | kabuto | kuwagata => rfl

theorem otherTitles_eq (v : Version) (key : Nat) :
    d.otherTitles v key =
      ((sharedKeys (d.survey v) d.comparison.classes.missing).filter fun e => e.2 == key).map
        fun e => d.title e.1 := by
  rw [otherTitles, h.aliases_eq, getD_aliasesOf, map_map]
  rfl

theorem otherTitles_eq_nil (v : Version)
    (hkey : key ∈ d.comparison.classes.common ∨ key ∈ d.comparison.classes.tiles) :
    d.otherTitles v key = [] := by
  rw [h.otherTitles_eq, map_eq_nil_iff, filter_eq_nil_iff]
  intro e he howner
  obtain rfl := eq_of_beq howner
  have hshared : e ∈ sharedKeys d.first (Classes.ofSurveys d.first d.second).missing ++
      sharedKeys d.second (Classes.ofSurveys d.first d.second).missing := by
    rw [h.comparison, missing_comparison] at he
    cases v with
    | kabuto => exact mem_append_left _ he
    | kuwagata => exact mem_append_right _ he
  obtain ⟨hcommon, htiles⟩ := Classes.not_mem_foldl_separate (sorted_ofSurveys d.first d.second)
    h.nodup_allKeys hshared
  rw [h.comparison] at hkey
  exact hkey.elim hcommon htiles

end

end Sound

/-! ### Sections -/

/-- The tilesets in the source of a version, each with its file. -/
def sections (d : Dump) (v : Version) (written : Table (Array UInt8) String) :
    List (Nat × String) :=
  (d.comparison.classes.common.map fun key => (key, d.title key)) ++
    (d.comparison.classes.tiles.map fun key => (key, d.title key ++ "_\x7bGAMEVERSION\x7d")) ++
    (d.comparison.classes.position.map fun key => (key, d.title key)) ++
    (d.comparison.classes.both.map fun key => (key, d.strayName v key)) ++
    (d.strays v d.comparison.classes.missing).map fun key => (key, d.fileIn v written key)

def filesNamed (d : Dump) (v : Version) (name : String) (es : List (Nat × String)) : List String :=
  (es.filter fun e => name ∈ d.title e.1 :: d.otherTitles v e.1).map fun e => d.storedPath e.2

theorem filesNamed_singleton (name file : String) :
    d.filesNamed v name [(key, file)] =
      if name ∈ d.title key :: d.otherTitles v key then [d.storedPath file] else [] := by
  unfold filesNamed
  rw [filter_cons]
  by_cases hname : name ∈ d.title key :: d.otherTitles v key
  · rw [if_pos hname, if_pos (decide_eq_true hname)]
    rfl
  · rw [if_neg hname, if_neg (by simpa using hname)]
    rfl

theorem filesNamed_append (name : String) (es es' : List (Nat × String)) :
    d.filesNamed v name (es ++ es') = d.filesNamed v name es ++ d.filesNamed v name es' := by
  rw [filesNamed, filter_append, map_append]
  rfl

theorem finds_blocks {others : Nat → List String} {file : Nat → String} {keys : List Nat}
    {blocks : List (List Line)}
    (h : List.Forall₂ (d.IsBlock others file) keys blocks)
    (hothers : ∀ key ∈ keys, others key = d.otherTitles v key) (name : String) :
    Finds name blocks.flatten (d.filesNamed v name (keys.map fun key => (key, file key))) := by
  induction h with
  | nil => exact finds_nil nofun
  | @cons key lines keys blocks hfirst _ ih =>
    obtain ⟨spot, rfl⟩ := hfirst
    rw [hothers key mem_cons_self, flatten_cons, map_cons, ← singleton_append, filesNamed_append]
    refine Finds.append ?_ (ih fun key hkey => hothers key (mem_cons_of_mem _ hkey))
    rw [filesNamed_singleton]
    exact finds_block _ _ _ _ _

theorem finds_tableLines (h : d.tableLines = .ok tables) (name : String) :
    Finds name tables [] := by
  simp only [tableLines, bind_ok_iff, pure_ok_iff] at h
  obtain ⟨names, -, stop, -, rfl⟩ := h
  refine finds_nil fun file hmem => ?_
  simp at hmem

/-- A dump's sources: the entries are named in the shared source, and the source of a version takes
it in; `lines` has the shared lines in the place of the inclusion. -/
def Sources (d : Dump) (w : Workspace) (table : List String)
    (lines : Version → List Line) : Prop :=
  ∃ shared, w.read (sharedPath d.folders) = .ok (render shared).toUTF8 ∧
    calls "TilesetTableEntry" shared = table.zipIdx.map tableEntry ∧
    ∀ v, ∃ own, w.read (versionPath d.folders v) =
        .ok (render (.inclusion (sharedPath d.folders) :: own)).toUTF8 ∧
      lines v = shared ++ own

/-- All tilesets that are stored, in order; `alone` are those that a version has alone. -/
def log (d : Dump) (alone : Version → List (String × ByteArray)) : List (String × ByteArray) :=
  d.sharedSaves ++ (d.versionSaves .kabuto ++ alone .kabuto) ++
    (d.versionSaves .kuwagata ++ alone .kuwagata)

/-- What a dump leaves behind. -/
structure Outcome (d : Dump) (w : Workspace) (table : List String)
    (lines : Version → List Line) (written : Version → Table (Array UInt8) String)
    (alone : Version → List (String × ByteArray)) : Prop where
  sources : d.Sources w table lines
  length : table.length = entryCount
  listed : ∃ ls index, d.first.listings.entries = keyed ls 0 ∧ Listed d.folders w ls table index ∧
    index.length = entryCount ∧
    ∀ i < entryCount, index[i]? = (d.names.find? (keyOf i)).or (d.sharedName (entryCount - 1))
  /-- An entry is named after itself or else after the tileset that it leads to. -/
  table : ∀ i < entryCount, table[i]? = (d.names.find? (keyOf i)).or (d.sharedName i)
  files : ∀ v name, filesAt name (lines v) = d.filesNamed v name (d.sections v (written v))
  first : ∃ ls, d.Strays .kabuto d.comparison.classes.missing ∅ (written .kabuto) (alone .kabuto) ls
  second : ∃ ls, d.Strays .kuwagata d.comparison.classes.missing (written .kabuto)
    (written .kuwagata) (alone .kuwagata) ls
  saved : ∃ before, d.Saved (fun _ => True) (d.log alone) before w

namespace Sound

theorem finds_sections (h : d.Sound images entries) {written : Table (Array UInt8) String}
    {common tiles moved both alone : List (List Line)}
    (htables : d.tableLines = .ok tables)
    (hcommon : List.Forall₂ (d.IsBlock (fun _ => []) d.title) d.comparison.classes.common common)
    (htiles : List.Forall₂ (d.IsBlock (fun _ => []) fun key =>
      d.title key ++ "_\x7bGAMEVERSION\x7d") d.comparison.classes.tiles tiles)
    (hmoved : List.Forall₂ (d.IsBlock (d.otherTitles v) d.title) d.comparison.classes.position moved)
    (hboth : List.Forall₂ (d.IsBlock (d.otherTitles v) (d.strayName v)) d.comparison.classes.both both)
    (halone : List.Forall₂ (d.IsBlock (d.otherTitles v) (d.fileIn v written))
      (d.strays v d.comparison.classes.missing) alone)
    (name : String) :
    Finds name (tables ++ common.flatten ++ [.blank] ++ tiles.flatten ++
        ([.blank] ++ moved.flatten ++ both.flatten ++ alone.flatten))
      (d.filesNamed v name (d.sections v written)) := by
  have hblank : Finds name [Line.blank] [] := finds_nil (by simp)
  have hshared := finds_blocks (v := v) hcommon
    (fun key hkey => (h.otherTitles_eq_nil v (.inl hkey)).symm) name
  have hshared' := finds_blocks (v := v) htiles
    (fun key hkey => (h.otherTitles_eq_nil v (.inr hkey)).symm) name
  have hown := ((hblank.append (finds_blocks hmoved (fun _ _ => rfl) name)).append
    (finds_blocks hboth (fun _ _ => rfl) name)).append (finds_blocks halone (fun _ _ => rfl) name)
  have hall := ((((finds_tableLines htables name).append hshared).append hblank).append
    hshared').append hown
  simpa only [sections, filesNamed_append, nil_append, append_assoc] using hall

end Sound

def perVersion {α : Type} (first second : α) : Version → α
  | .kabuto => first
  | .kuwagata => second

/-- **What a dump leaves behind.** -/
theorem exists_outcome {w w' : Workspace} (h : (dump f).on w = (.ok (), w')) :
    ∃ d table lines written alone, Of d f w ∧ d.Outcome w' table lines written alone := by
  obtain ⟨d, v₁, v₂, v₃, v₄, first, second, hd, -, hshared, hfirst, hsecond, hindex⟩ :=
    exists_of_dump h
  obtain ⟨images, entries, -, -, hsound⟩ := hd.exists_sound
  obtain ⟨tables, common, tiles, htables, hcommon, htiles, hsaved, hread⟩ := of_dumpShared hshared
  obtain ⟨moved₁, both₁, _, saves₁, hmoved₁, hboth₁, hstrays₁, hsaved₁, hread₁⟩ :=
    of_dumpVersion hfirst
  obtain ⟨moved₂, both₂, _, saves₂, hmoved₂, hboth₂, hstrays₂, hsaved₂, hread₂⟩ :=
    of_dumpVersion hsecond
  obtain ⟨alone₁, halone₁, rfl⟩ := hstrays₁.blocks
  obtain ⟨alone₂, halone₂, rfl⟩ := hstrays₂.blocks
  obtain ⟨table, htable, haddresses, hinfo⟩ :=
    calls_tableLines (hsound.survey .kabuto).listings htables
  obtain ⟨hlength, hnames⟩ := getElem?_of_listedName _ htable
  obtain ⟨index, hcount, hlast, hlists, hlist⟩ :=
    exists_index (hsound.survey .kabuto) (hsound.length .kabuto) hindex
  have hsource : ∀ key, Workspace.EndsIn key "tileset_table.asm" →
      ¬Workspace.EndsIn key ".tbl" := fun key hkey => hkey.not_endsIn (by decide)
  have hkept : w'.read (sharedPath d.folders) = .ok (render
      (tables ++ common.flatten ++ [.blank] ++ tiles.flatten)).toUTF8 :=
    hlists.read (read_sharedPath_of_dumpVersion hsecond
      (read_sharedPath_of_dumpVersion hfirst hread)) (hsource _ (endsIn_sharedPath d.folders))
  -- the second version stores tilesets and writes its own source, but leaves that of the first
  have hkept₁ := hlists.read (hsaved₂.same.read hread₁ (by
    rintro (htiles | hother)
    · exact not_isTiles_of_source (endsIn_versionPath d.folders _) htiles
    · exact absurd (versionPath_inj hother) (by decide)))
    (hsource _ (endsIn_versionPath d.folders _))
  have hkept₂ := hlists.read hread₂ (hsource _ (endsIn_versionPath d.folders _))
  have hversions : ∀ v, ∃ own, w'.read (versionPath d.folders v) =
        .ok (render (.inclusion (sharedPath d.folders) :: own)).toUTF8 ∧
      ∀ name, filesAt name (tables ++ common.flatten ++ [.blank] ++ tiles.flatten ++ own) =
        d.filesNamed v name (d.sections v (perVersion first second v)) := by
    intro v
    cases v with
    | kabuto =>
      exact ⟨_, hkept₁, fun name =>
        (hsound.finds_sections htables hcommon htiles hmoved₁ hboth₁ halone₁ name).filesAt_eq⟩
    | kuwagata =>
      exact ⟨_, hkept₂, fun name =>
        (hsound.finds_sections htables hcommon htiles hmoved₂ hboth₂ halone₂ name).filesAt_eq⟩
  choose own hown hfiles using hversions
  -- the blocks of tilesets call no instruction, so all calls are those of the tables
  have hcalls : ∀ name, calls name
      (tables ++ common.flatten ++ [.blank] ++ tiles.flatten) = calls name tables := by
    intro name
    simp only [calls_append, calls_blocks _ hcommon, calls_blocks _ htiles, append_nil]
    exact append_nil _
  refine ⟨d, table, _, perVersion first second, perVersion saves₁ saves₂, hd,
    ⟨_, hkept, (hcalls _).trans haddresses, fun v => ⟨own v, hown v, rfl⟩⟩,
    hlength.trans (hsound.length .kabuto), ⟨_, index, (hsound.survey .kabuto).listings, ?_, hcount,
      hlast⟩, ?_, hfiles, ⟨_, hstrays₁⟩, ⟨_, hstrays₂⟩, ?_⟩
  · exact ⟨⟨_, hkept, (hcalls _).trans haddresses, (hcalls _).trans hinfo⟩, hlist⟩
  · intro i hi
    have hl := getElem?_eq_getElem (hsound.length .kabuto ▸ hi)
    rw [sharedName_eq (hsound.survey .kabuto) hl]
    exact hnames i _ hl
  · have hindexed : d.Saved (Workspace.EndsIn · ".tbl") [] v₄ w' :=
      .of_sameBut hlists fun key hkey => hkey.not_endsIn (by decide)
    have hall := (((hsaved.mono fun _ _ => trivial).trans (hsaved₁.mono fun _ _ => trivial)).trans
      (hsaved₂.mono fun _ _ => trivial)).trans (hindexed.mono fun _ _ => trivial)
    rw [append_nil] at hall
    exact ⟨v₁, hall⟩

/-! ### Names -/

/-- Names that tell the tilesets apart: the keys of the classes and the end of the table have one
each, which is part of a path of its own. -/
structure Apart (d : Dump) : Prop where
  named : ∀ key : Nat, (d.names.find? key).isSome ↔
    key ∈ d.comparison.classes.keys ∨ key = addressTableEnd
  inj : ∀ key key' : Nat, (d.names.find? key).isSome → (d.names.find? key').isSome →
    d.title key = d.title key' → key = key'
  slash : ∀ key ∈ d.comparison.classes.keys, '/' ∉ (d.title key).toList
  /-- No name holds the mark of a part that depends on the version. -/
  brace : ∀ key ∈ d.comparison.classes.keys, '\x7b' ∉ (d.title key).toList
  stray : ∀ key ∈ d.comparison.classes.keys, ∀ key' ∈ d.comparison.classes.keys, ∀ v,
    d.title key ≠ d.strayName v key'

namespace Apart

theorem eq_of_title (ha : d.Apart) (hkey : key ∈ d.comparison.classes.keys)
    (hkey' : key' ∈ d.comparison.classes.keys) (h : d.title key = d.title key') : key = key' :=
  ha.inj key key' ((ha.named key).2 (.inl hkey)) ((ha.named key').2 (.inl hkey')) h

theorem title_ne_stop (ha : d.Apart) (hs : d.Sound images entries)
    (hkey : key ∈ d.comparison.classes.keys) : d.title key ≠ d.title addressTableEnd := by
  intro h
  have hend := ha.inj key addressTableEnd ((ha.named key).2 (.inl hkey))
    ((ha.named addressTableEnd).2 (.inr rfl)) h
  exact hs.notMem_addressTableEnd (hend ▸ hkey)

end Apart

namespace Sound

theorem map_fst_sections (d : Dump) (v : Version) (written : Table (Array UInt8) String) :
    (d.sections v written).map Prod.fst = d.comparison.classes.common ++
      d.comparison.classes.tiles ++ d.comparison.classes.position ++ d.comparison.classes.both ++
      d.strays v d.comparison.classes.missing := by
  simp [sections, Function.comp_def]

theorem nodup_sections (h : d.Sound images entries) (v : Version)
    (written : Table (Array UInt8) String) : ((d.sections v written).map Prod.fst).Nodup := by
  rw [map_fst_sections]
  exact h.nodup.sublist (filter_sublist.append_left _)

theorem mem_map_fst_sections (h : d.Sound images entries) :
    key ∈ (d.sections v written).map Prod.fst ↔ ∃ t, (d.survey v).found.find? key = some t := by
  have hpaired : ∀ same, Paired d.first.found d.second.found same key →
      ∃ t, (d.survey v).found.find? key = some t := by
    rintro same ⟨a, b, ha, hb, -⟩
    cases v with
    | kabuto => exact ⟨a, ha⟩
    | kuwagata => exact ⟨b, hb⟩
  rw [map_fst_sections]
  constructor
  · simp only [mem_append]
    rintro ((((hkey | hkey) | hkey) | hkey) | hkey)
    · exact hpaired _ (h.sorted.common key hkey)
    · exact hpaired _ (h.sorted.tiles key hkey)
    · exact hpaired _ (h.sorted.position key hkey)
    · exact hpaired _ (h.sorted.both key hkey)
    · exact Option.isSome_iff_exists.1 (mem_filter.1 hkey).2
  · intro hfound
    have hkey := h.mem_keys_iff.2 ⟨v, hfound⟩
    rcases mem_append.1 hkey with hkey | hkey
    · exact mem_append_left _ hkey
    · exact mem_append_right _ (mem_filter.2 ⟨hkey, Option.isSome_iff_exists.2 hfound⟩)

section

variable (h : d.Sound images entries) (ha : d.Apart) (hkey : key ∈ d.comparison.classes.keys)
  (howner : (d.survey v).owner? key = some o)

include h ha hkey howner

theorem title_mem_iff (hfound : (d.survey v).found.find? k = some t) :
    d.title key ∈ d.title k :: d.otherTitles v k ↔ k = o := by
  have hk : k ∈ d.comparison.classes.keys := h.mem_keys_iff.2 ⟨v, t, hfound⟩
  rw [h.otherTitles_eq, mem_cons, mem_map]
  constructor
  · rintro (htitle | ⟨⟨other, owner⟩, hother, htitle⟩)
    · obtain rfl := ha.eq_of_title hkey hk htitle
      exact Option.some.inj (((h.survey v).owner?_of_found hfound).symm.trans howner)
    · obtain ⟨hmem, hsame⟩ := mem_filter.1 hother
      obtain ⟨hmissing, -, hother⟩ := mem_sharedKeys_iff.1 hmem
      obtain rfl := ha.eq_of_title (Classes.mem_keys_of_missing hmissing) hkey htitle
      rw [howner, Option.some.injEq] at hother
      exact (eq_of_beq hsame).symm.trans hother.symm
  · rintro rfl
    cases hown : (d.survey v).found.find? key with
    | some t' =>
      have hself := (h.survey v).owner?_of_found hown
      rw [howner, Option.some.injEq] at hself
      exact .inl (congrArg d.title hself.symm)
    | none =>
      right
      refine ⟨(key, k), mem_filter.2 ⟨mem_sharedKeys_iff.2 ?_, beq_self_eq_true k⟩, rfl⟩
      exact ⟨h.mem_missing hkey hown, hown, howner⟩

theorem filesNamed_title :
    d.filesNamed v (d.title key) (d.sections v written) =
      ((d.sections v written).filter fun e => e.1 = o).map fun e => d.storedPath e.2 := by
  have hsame : (d.sections v written).filter (fun e =>
      d.title key ∈ d.title e.1 :: d.otherTitles v e.1) =
      (d.sections v written).filter fun e => e.1 = o := by
    refine filter_congr fun e he => decide_eq_decide.2 ?_
    obtain ⟨t, hfound⟩ := h.mem_map_fst_sections.1 (mem_map_of_mem he)
    exact h.title_mem_iff ha hkey howner hfound
  rw [filesNamed, hsame]

end

end Sound

theorem filter_fst_eq {l : List (Nat × String)} (hl : (l.map Prod.fst).Nodup) (hmem : (o, file) ∈ l)
    : (l.filter fun e => e.1 = o) = [(o, file)] := by
  induction l with
  | nil => cases hmem
  | cons e l ih =>
    rw [map_cons, nodup_cons] at hl
    rcases mem_cons.1 hmem with rfl | hmem
    · have hrest : (l.filter fun e => e.1 = o) = [] := by
        rw [filter_eq_nil_iff]
        intro e he hkey
        exact hl.1 (mem_map.2 ⟨e, he, of_decide_eq_true hkey⟩)
      rw [filter_cons_of_pos (by simp), hrest]
    · have hne : e.1 ≠ o := by
        rintro rfl
        exact hl.1 (mem_map.2 ⟨_, hmem, rfl⟩)
      rw [filter_cons_of_neg (by simpa using hne), ih hl.2 hmem]

namespace Outcome

variable {w : Workspace} {table : List String} {lines : Version → List Assembly.Line}
  {written : Version → Table (Array UInt8) String} {alone : Version → List (String × ByteArray)}

section

variable (h : d.Outcome w table lines written alone) (hs : d.Sound images entries) (ha : d.Apart)

include h hs ha

/-- **At the name of a key** stands the file of the tileset that it leads to. -/
theorem filesAt_title (hkey : key ∈ d.comparison.classes.keys)
    (howner : (d.survey v).owner? key = some o) (hfile : (o, file) ∈ d.sections v (written v)) :
    filesAt (d.title key) (lines v) = [d.storedPath file] := by
  rw [h.files, hs.filesNamed_title ha hkey howner, filter_fst_eq (hs.nodup_sections v _) hfile]
  rfl

theorem filesAt_title_of_empty (hkey : key ∈ d.comparison.classes.keys)
    (howner : (d.survey v).owner? key = some addressTableEnd) :
    filesAt (d.title key) (lines v) = [] := by
  rw [h.files, hs.filesNamed_title ha hkey howner, map_eq_nil_iff, filter_eq_nil_iff]
  intro e he hend
  obtain ⟨t, hfound⟩ := hs.mem_map_fst_sections.1 (mem_map_of_mem he)
  rw [of_decide_eq_true hend, (hs.survey v).find?_end (hs.length v)] at hfound
  cases hfound

theorem filesAt_stop (v : Version) : filesAt (d.title addressTableEnd) (lines v) = [] := by
  rw [h.files, filesNamed, map_eq_nil_iff, filter_eq_nil_iff]
  intro e he hname
  obtain ⟨t, hfound⟩ := hs.mem_map_fst_sections.1 (mem_map_of_mem he)
  rcases mem_cons.1 (of_decide_eq_true hname) with htitle | hother
  · exact ha.title_ne_stop hs (hs.mem_keys_iff.2 ⟨v, t, hfound⟩) htitle.symm
  · rw [hs.otherTitles_eq, mem_map] at hother
    obtain ⟨⟨k, owner⟩, hmem, htitle⟩ := hother
    obtain ⟨hmissing, -⟩ := mem_sharedKeys_iff.1 (mem_filter.1 hmem).1
    exact ha.title_ne_stop hs (Classes.mem_keys_of_missing hmissing) htitle

end

end Outcome

end Dump

end Tileset

end Cartridge
