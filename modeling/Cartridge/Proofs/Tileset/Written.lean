import Cartridge.Proofs.Tileset.Survey
import Cartridge.Proofs.Workspace.Files
import Cartridge.Tileset.Dump

/-!
# What a tileset dump writes

A dump taken apart: which files each of its steps may change, and what the files hold at the end.

Main results: `exists_of_dump` and `Dump.of_dumpShared`.
-/

open List

namespace Cartridge.Tileset

open Workspace Job Assembly Except

variable {f : Folders} {w v w' : Workspace} {c : Classes}

namespace Dump

variable {d : Dump} {all : List (List Line)} {file : String → String}
  {name path stem stem' : String} {t : Found}

/-! ### Saved tilesets -/

def storedKey (d : Dump) (stem : String) : String :=
  plainPath (Path.join d.folders.stored (stem ++ ".malias"))

def IsTiles (key : String) : Prop := EndsIn key ".malias" ∨ EndsIn key ".png"

theorem endsIn_storedKey (d : Dump) (stem : String) : EndsIn (d.storedKey stem) ".malias" :=
  endsIn_plainPath_join _ (endsIn_append ..) (by decide)

theorem of_savePicture {image : List UInt8} {width height : Option Int}
    (h : (Picture.save path image width height).on w = (.ok (), w')) :
    SameBut (· = plainPath path) w w' := by
  simp only [Picture.save, on_bind_ok_iff, on_lift, Prod.mk.injEq] at h
  obtain ⟨key, v, hcreate, file, v', ⟨-, rfl⟩, happend⟩ := h
  obtain ⟨rfl, -, hcreated, -⟩ := of_create hcreate
  exact hcreated.trans (sameBut_of_append happend)

/-- **A saved tileset** has its stored form in its file; else only its picture has changed. -/
theorem of_save {t : Decoded} (h : (d.save stem t).on w = (.ok (), w')) :
    w.target (Path.join d.folders.stored (stem ++ ".malias")) = .ok (d.storedKey stem) ∧
      SameBut (fun key => key = d.storedKey stem ∨ EndsIn key ".png") w w' ∧
      w'.files.find? (d.storedKey stem) = some t.stored := by
  simp only [save, on_bind_ok_iff] at h
  obtain ⟨key, v, hcreate, ⟨⟩, v', hpicture, happend⟩ := h
  have hpng : EndsIn (plainPath (Path.join d.folders.pictures (stem ++ ".malias.png"))) ".png" :=
    endsIn_plainPath_join _ (List.IsSuffix.trans (by decide) (endsIn_append stem ".malias.png"))
      (by decide)
  have hdrawn : SameBut (EndsIn · ".png") v v' :=
    (of_savePicture hpicture).mono fun key hkey => hkey ▸ hpng
  obtain ⟨hsame, hfull, -⟩ := of_create_append hcreate hdrawn happend
    ((d.endsIn_storedKey stem).not_endsIn (by decide))
  obtain ⟨rfl, htarget, -⟩ := of_create hcreate
  exact ⟨htarget, hsame, hfull⟩

/-- The tilesets `saves` were stored under their names, one after the other, and beside them only
pictures and the files with the property `P` were written. -/
structure Saved (d : Dump) (P : String → Prop) (saves : List (String × ByteArray))
    (w w' : Workspace) : Prop where
  same : SameBut (fun key => IsTiles key ∨ P key) w w'
  targets : ∀ e ∈ saves,
    w.target (Path.join d.folders.stored (e.1 ++ ".malias")) = .ok (d.storedKey e.1)
  /-- Of several tilesets with one name the last is kept. -/
  files : (∀ e ∈ saves, '/' ∉ e.1.toList) → ∀ stem : String, '/' ∉ stem.toList →
    w'.files.find? (d.storedKey stem) =
      (saves.reverse.lookup stem).or (w.files.find? (d.storedKey stem))

theorem storedKey_inj (h : '/' ∉ stem.toList) (h' : '/' ∉ stem'.toList)
    (heq : d.storedKey stem = d.storedKey stem') : stem = stem' :=
  (String.append_left_inj _).1
    (plainPath_join_inj (.append h (by decide)) (.append h' (by decide)) heq)

namespace Saved

variable {P Q : String → Prop} {saves saves' : List (String × ByteArray)}

theorem refl (d : Dump) (P : String → Prop) (w : Workspace) : d.Saved P [] w w where
  same := .refl _ w
  targets := nofun
  files _ _ _ := rfl

theorem mono (h : d.Saved P saves w w') (hle : ∀ key, P key → Q key) : d.Saved Q saves w w' where
  same := h.same.mono fun key => Or.imp_right (hle key)
  targets := h.targets
  files := h.files

theorem trans (h : d.Saved P saves w v) (h' : d.Saved P saves' v w') :
    d.Saved P (saves ++ saves') w w' where
  same := h.same.trans h'.same
  targets e he := by
    rcases mem_append.1 he with he | he
    · exact h.targets e he
    · exact target_of_folders h.same.folders.symm (h'.targets e he)
  files hstems stem hstem := by
    have hleft : ∀ e ∈ saves, '/' ∉ e.1.toList := fun e he =>
      hstems e (mem_append_left _ he)
    have hright : ∀ e ∈ saves', '/' ∉ e.1.toList := fun e he =>
      hstems e (mem_append_right _ he)
    rw [h'.files hright stem hstem, h.files hleft stem hstem, reverse_append,
      lookup_append, Option.or_assoc]

theorem of_sameBut (h : SameBut P w w') (hP : ∀ key, P key → ¬EndsIn key ".malias") :
    d.Saved P [] w w' where
  same := h.mono fun _ => .inr
  targets := nofun
  files _ stem _ := h.files _ fun hkey => hP _ hkey (d.endsIn_storedKey stem)

theorem of_save {t : Decoded} (h : (d.save stem t).on w = (.ok (), w')) :
    d.Saved P [(stem, t.stored)] w w' := by
  obtain ⟨htarget, hsame, hfile⟩ := Dump.of_save h
  refine ⟨hsame.mono ?_, ?_, ?_⟩
  · rintro key (rfl | hpng)
    · exact .inl (.inl (d.endsIn_storedKey stem))
    · exact .inl (.inr hpng)
  · rintro e he
    rw [mem_singleton.1 he]
    exact htarget
  · intro hstems stem' hstem'
    have hstem := hstems _ (mem_singleton_self _)
    rw [reverse_singleton, lookup_cons, lookup_nil]
    by_cases heq : stem' = stem
    · rw [heq, hfile, beq_self_eq_true]
      rfl
    · rw [beq_false_of_ne heq, Option.none_or, hsame.files]
      rintro (hkey | hpng)
      · exact heq (storedKey_inj hstem' hstem hkey)
      · exact (d.endsIn_storedKey stem').not_endsIn (by decide) hpng

theorem of_mapM {g : Nat → Job (List Line)} {log : Nat → List (String × ByteArray)}
    {L : Nat → List Line → Prop} {keys : List Nat}
    (hstep : ∀ key w w' lines, (g key).on w = (.ok lines, w') → d.Saved P (log key) w w' ∧ L key lines)
    (h : (keys.mapM g).on w = (.ok all, w')) :
    d.Saved P (keys.flatMap log) w w' ∧ List.Forall₂ L keys all := by
  induction keys generalizing w all with
  | nil =>
    cases h
    exact ⟨.refl d P _, .nil⟩
  | cons key keys ih =>
    obtain ⟨lines, v, rest, hfirst, hrest, rfl⟩ := on_mapM_cons_ok_iff.1 h
    obtain ⟨hsaved, hlines⟩ := hstep key w v lines hfirst
    obtain ⟨hsaved', hlines'⟩ := ih hrest
    exact ⟨hsaved.trans hsaved', .cons hlines hlines'⟩

end Saved

/-! ### Steps -/

def title (d : Dump) (key : Nat) : String := (d.names.find? key).getD ""

def storedOf (d : Dump) (v : Version) (key : Nat) : ByteArray :=
  (((d.survey v).found.find? key).map (·.tiles.stored)).getD ByteArray.empty

def otherTitles (d : Dump) (v : Version) (key : Nat) : List String :=
  (((d.aliases v).bind fun t => t.find? key).getD []).map d.title

def block (d : Dump) (spot name : String) (others : List String) (file : String) :
    List Line :=
  [.place ("Tileset Data " ++ name) spot, .label name] ++ others.map .label ++
    [.binary (d.storedPath file), .blank]

theorem title_eq {key : Nat} (h : d.nameOf key = .ok name) :
    d.names.find? key = some name ∧ d.title key = name := by
  have hname := demand_ok_iff.1 h
  rw [title, hname]
  exact ⟨rfl, rfl⟩

theorem storedOf_eq {ver : Version} {key : Nat} (h : d.foundIn ver key = .ok t) :
    (d.survey ver).found.find? key = some t ∧ d.storedOf ver key = t.tiles.stored := by
  have hfound := demand_ok_iff.1 h
  rw [storedOf, hfound]
  exact ⟨rfl, rfl⟩

theorem exists_block {file : String} {position : Int} {others lines : List Line}
    {titles : List String} (hothers : others = titles.map .label)
    (h : d.dataLines name position others file = .ok lines) :
    ∃ spot, lines = d.block spot name titles file := by
  simp only [dataLines, sectionLines, bind_ok_iff, pure_ok_iff] at h
  obtain ⟨_, ⟨a, -, rfl⟩, rfl⟩ := h
  subst hothers
  exact ⟨_, rfl⟩

theorem aliasLines_eq {ver : Version} {key : Nat} {lines : List Line}
    (h : d.aliasLines ver key = .ok lines) :
    (d.aliases ver).isSome ∧ lines = (d.otherTitles ver key).map .label := by
  simp only [aliasLines, bind_ok_iff, demand_ok_iff] at h
  obtain ⟨aliases, haliases, hlines⟩ := h
  refine ⟨Option.isSome_iff_exists.2 ⟨aliases, haliases⟩, ?_⟩
  rw [otherTitles, haliases, Option.bind_some, map_map]
  have hall := mapM_ok_iff.1 hlines
  clear hlines
  generalize (aliases.find? key).getD [] = others at hall ⊢
  induction hall with
  | nil => rfl
  | cons hfirst _ ih =>
    simp only [bind_ok_iff, pure_ok_iff] at hfirst
    obtain ⟨name, hname, rfl⟩ := hfirst
    rw [ih, map_cons, Function.comp_apply, (title_eq hname).2]

variable {ver : Version} {key : Nat} {lines : List Line} {P : String → Prop}

theorem of_dumpCommon (h : (d.dumpCommon key).on w = (.ok lines, w')) :
    d.Saved P [(d.title key, d.storedOf .kabuto key)] w w' ∧
      ∃ spot, lines = d.block spot (d.title key) [] (d.title key) := by
  simp only [dumpCommon, on_bind_ok_iff, on_lift, Prod.mk.injEq] at h
  obtain ⟨t, _, ⟨hfound, rfl⟩, name, _, ⟨hname, rfl⟩, ⟨⟩, v, hsave, hlines, rfl⟩ := h
  rw [(title_eq hname).2, (storedOf_eq hfound).2]
  exact ⟨.of_save hsave, exists_block rfl hlines⟩

theorem of_dumpTiles (h : (d.dumpTiles key).on w = (.ok lines, w')) :
    d.Saved P (Version.all.map fun v => (d.title key ++ "_" ++ v.name, d.storedOf v key)) w w' ∧
      ∃ spot, lines = d.block spot (d.title key) [] (d.title key ++ "_\x7bGAMEVERSION\x7d") := by
  simp only [dumpTiles, Version.all, forIn_cons, forIn_nil, on_bind_ok_iff,
    on_lift, on_pure, Prod.mk.injEq] at h
  obtain ⟨t, _, ⟨-, rfl⟩, name, _, ⟨hname, rfl⟩, ⟨⟩, v, ⟨_, _, ⟨first, _, ⟨hfirst, rfl⟩, ⟨⟩, u,
    hsave, ⟨⟩, rfl⟩, hrest⟩, hlines, rfl⟩ := h
  simp only [on_bind_ok_iff, on_lift, on_pure, Prod.mk.injEq] at hrest
  obtain ⟨_, _, ⟨second, _, ⟨hsecond, rfl⟩, ⟨⟩, u', hsave', ⟨⟩, rfl⟩, hdone⟩ := hrest
  cases hdone
  rw [(title_eq hname).2, Version.all, map_cons, map_singleton, (storedOf_eq hfirst).2,
    (storedOf_eq hsecond).2]
  exact ⟨(Saved.of_save hsave).trans (.of_save hsave'), exists_block rfl hlines⟩

theorem of_dumpMoved (h : (d.dumpMoved ver file key).on w = (.ok lines, w')) :
    d.Saved P [(file (d.title key), d.storedOf ver key)] w w' ∧
      ∃ spot, lines = d.block spot (d.title key) (d.otherTitles ver key) (file (d.title key)) := by
  simp only [dumpMoved, on_bind_ok_iff, on_lift, Prod.mk.injEq] at h
  obtain ⟨t, _, ⟨hfound, rfl⟩, name, _, ⟨hname, rfl⟩, ⟨⟩, v, hsave, others, _, ⟨hothers, rfl⟩,
    hlines, rfl⟩ := h
  rw [(title_eq hname).2, (storedOf_eq hfound).2]
  exact ⟨.of_save hsave, exists_block (aliasLines_eq hothers).2 hlines⟩

/-! ### Source files -/

def IsBlock (d : Dump) (others : Nat → List String) (file : Nat → String) (key : Nat)
    (lines : List Line) : Prop :=
  ∃ spot, lines = d.block spot (d.title key) (others key) (file key)

def sharedPath (f : Folders) : String := Path.join f.source "tileset_table.asm"

def versionPath (f : Folders) (v : Version) : String :=
  Path.join f.source (v.name ++ "/tileset_table.asm")

theorem endsIn_sharedPath (f : Folders) : EndsIn (plainPath (sharedPath f)) "tileset_table.asm" :=
  endsIn_plainPath_join _ suffix_rfl (by decide)

theorem endsIn_versionPath (f : Folders) (v : Version) :
    EndsIn (plainPath (versionPath f v)) "tileset_table.asm" :=
  endsIn_plainPath_join _ (List.IsSuffix.trans (by decide)
    (endsIn_append v.name "/tileset_table.asm")) (by decide)

theorem not_isTiles_of_source {key : String} (h : EndsIn key "tileset_table.asm") :
    ¬IsTiles key := by
  rintro (hmalias | hpng)
  · exact h.not_endsIn (by decide) hmalias
  · exact h.not_endsIn (by decide) hpng

theorem of_source {out : String} {v v' : Workspace} {saves : List (String × ByteArray)}
    {bytes : ByteArray} (hpath : EndsIn (plainPath path) "tileset_table.asm")
    (hcreate : (create path).on w = (.ok out, v)) (hsaved : d.Saved (fun _ => False) saves v v')
    (happend : (append out bytes).on v' = (.ok (), w')) :
    d.Saved (· = plainPath path) saves w w' ∧ w'.read path = .ok bytes := by
  obtain ⟨-, -, hread⟩ := of_create_append hcreate hsaved.same happend
    fun h => h.elim (not_isTiles_of_source hpath) id
  obtain ⟨rfl, -, hcreated, -⟩ := of_create hcreate
  have hother : ∀ key, key = plainPath path → ¬EndsIn key ".malias" := by
    rintro _ rfl
    exact hpath.not_endsIn (by decide)
  have hall := ((Saved.of_sameBut hcreated hother).trans (hsaved.mono fun _ => False.elim)).trans
    (Saved.of_sameBut (sameBut_of_append happend) hother)
  rw [append_nil] at hall
  exact ⟨hall, hread⟩

def sharedSaves (d : Dump) : List (String × ByteArray) :=
  (d.comparison.classes.common.map fun key => (d.title key, d.storedOf .kabuto key)) ++
    d.comparison.classes.tiles.flatMap fun key =>
      Version.all.map fun v => (d.title key ++ "_" ++ v.name, d.storedOf v key)

/-- **The shared source**: the tables, then the tilesets common to both versions and those that
differ in their tiles only. -/
theorem of_dumpShared (h : d.dumpShared.on w = (.ok (), w')) :
    ∃ tables common tiles, d.tableLines = .ok tables ∧
      List.Forall₂ (d.IsBlock (fun _ => []) d.title) d.comparison.classes.common common ∧
      List.Forall₂ (d.IsBlock (fun _ => []) fun key => d.title key ++ "_\x7bGAMEVERSION\x7d")
        d.comparison.classes.tiles tiles ∧
      d.Saved (· = plainPath (sharedPath d.folders)) d.sharedSaves w w' ∧
      w'.read (sharedPath d.folders) = .ok (render
        (tables ++ common.flatten ++ [.blank] ++ tiles.flatten)).toUTF8 := by
  simp only [dumpShared, on_bind_ok_iff, on_lift, Prod.mk.injEq] at h
  obtain ⟨out, v, hcreate, tables, _, ⟨htables, rfl⟩, common, u, hcommon, tiles, u', htiles,
    happend⟩ := h
  obtain ⟨hsaved, hblocks⟩ := Saved.of_mapM
    (L := d.IsBlock (fun _ => []) d.title) (fun _ _ _ _ hstep => of_dumpCommon hstep) hcommon
  obtain ⟨hsaved', hblocks'⟩ := Saved.of_mapM
    (L := d.IsBlock (fun _ => []) fun key => d.title key ++ "_\x7bGAMEVERSION\x7d")
    (fun _ _ _ _ hstep => of_dumpTiles hstep) htiles
  rw [← map_eq_flatMap] at hsaved
  obtain ⟨hall, hread⟩ := of_source (endsIn_sharedPath d.folders) hcreate (hsaved.trans hsaved')
    happend
  exact ⟨tables, common, tiles, htables, hblocks, hblocks', hall, hread⟩

/-! ### Tilesets of one version -/

def strayName (d : Dump) (v : Version) (key : Nat) : String := d.title key ++ "_" ++ v.name

def strays (d : Dump) (v : Version) (keys : List Nat) : List Nat :=
  keys.filter fun key => (d.survey v).found.contains key

def fileIn (d : Dump) (v : Version) (written : Table (Array UInt8) String) (key : Nat) : String :=
  (((d.survey v).found.find? key).bind fun t => written.find? t.tiles.data).getD ""

/-- What the tilesets of `keys` that a version has alone add to the files with known tiles. -/
structure Strays (d : Dump) (v : Version) (keys : List Nat)
    (written written' : Table (Array UInt8) String) (saves : List (String × ByteArray))
    (lines : List Line) : Prop where
  /-- A file stays that of its tiles. -/
  grows : ∀ data file, written.find? data = some file → written'.find? data = some file
  /-- A new file holds the stored form of a tileset with its tiles. -/
  origin : ∀ data file, written'.find? data = some file → written.find? data = some file ∨
    ∃ key ∈ keys, ∃ t, (d.survey v).found.find? key = some t ∧ t.tiles.data = data ∧
      file = d.strayName v key ∧ (file, t.tiles.stored) ∈ saves
  saves : ∀ e ∈ saves, ∃ key ∈ keys, ∃ t, (d.survey v).found.find? key = some t ∧
    e = (d.strayName v key, t.tiles.stored)
  present : ∀ key ∈ keys, ∀ t, (d.survey v).found.find? key = some t →
    ∃ file, written'.find? t.tiles.data = some file
  blocks : ∃ blocks, List.Forall₂ (d.IsBlock (d.otherTitles v) (d.fileIn v written'))
    (d.strays v keys) blocks ∧ lines = blocks.flatten

variable {written written' : Table (Array UInt8) String} {keys : List Nat}

theorem of_dumpMissing {result : Table (Array UInt8) String × List Line}
    (h : (d.dumpMissing ver written key).on w = (.ok result, w')) :
    ((d.survey ver).found.find? key = none ∧ result = (written, []) ∧ w' = w) ∨
      ∃ t spot file, (d.survey ver).found.find? key = some t ∧
        file = (written.find? t.tiles.data).getD (d.strayName ver key) ∧
        result = (written.insert t.tiles.data file,
          d.block spot (d.title key) (d.otherTitles ver key) file) ∧
        d.Saved P (if written.contains t.tiles.data then [] else [(file, t.tiles.stored)]) w w' := by
  unfold dumpMissing at h
  cases hfound : (d.survey ver).found.find? key with
  | none =>
    rw [hfound] at h
    cases h
    exact .inl ⟨rfl, rfl, rfl⟩
  | some t =>
    rw [hfound] at h
    simp only [on_bind_ok_iff, on_lift, Prod.mk.injEq] at h
    obtain ⟨name, _, ⟨hname, rfl⟩, h⟩ := h
    rw [strayName, (title_eq hname).2]
    generalize hfile : (written.find? t.tiles.data).getD (name ++ "_" ++ ver.name) = file at h
    -- whether or not the tiles are written, the section comes next
    have hstep : ∃ v, d.Saved P
        (if written.contains t.tiles.data then [] else [(file, t.tiles.stored)]) w v ∧
        (do let others ← lift (d.aliasLines ver key)
            let lines ← lift (d.dataLines name t.position others file)
            pure (written.insert t.tiles.data file, lines) : Job _).on v = (.ok result, w') := by
      cases hcontains : written.contains t.tiles.data with
      | true =>
        rw [hcontains] at h
        exact ⟨w, .refl d P w, h⟩
      | false =>
        rw [hcontains, Bool.not_false, if_pos rfl, on_bind_ok_iff] at h
        obtain ⟨⟨⟩, v, hsave, h⟩ := h
        exact ⟨v, .of_save hsave, h⟩
    obtain ⟨v, hsaved, h⟩ := hstep
    simp only [on_bind_ok_iff, on_lift, on_pure, Prod.mk.injEq, ok.injEq] at h
    obtain ⟨others, _, ⟨hothers, rfl⟩, lines, _, ⟨hlines, rfl⟩, rfl, rfl⟩ := h
    obtain ⟨spot, rfl⟩ := exists_block (aliasLines_eq hothers).2 hlines
    exact .inr ⟨t, spot, file, rfl, hfile.symm, rfl, hsaved⟩

theorem Strays.step {spot file : String} {saves : List (String × ByteArray)}
    (hfound : (d.survey ver).found.find? key = some t)
    (hfile : file = (written.find? t.tiles.data).getD (d.strayName ver key))
    (hrest : d.Strays ver keys (written.insert t.tiles.data file) written' saves lines) :
    d.Strays ver (key :: keys) written written'
      ((if written.contains t.tiles.data then [] else [(file, t.tiles.stored)]) ++ saves)
      (d.block spot (d.title key) (d.otherTitles ver key) file ++ lines) := by
  have hkept : written'.find? t.tiles.data = some file :=
    hrest.grows _ _ (Table.find?_insert_self ..)
  have hcontains : (d.survey ver).found.contains key = true := by
    rw [Table.contains, hfound]
    rfl
  refine ⟨?_, ?_, ?_, ?_, ?_⟩
  · intro data old hold
    apply hrest.grows
    by_cases hdata : data = t.tiles.data
    · subst hdata
      rw [Table.find?_insert_self, hfile, hold]
      rfl
    · rwa [Table.find?_insert_of_ne _ hdata]
  · intro data old hold
    rcases hrest.origin data old hold with hbefore | ⟨key', hkey', t', hfound', hdata, hname, hmem⟩
    · by_cases hdata : data = t.tiles.data
      · subst hdata
        rw [Table.find?_insert_self, Option.some.injEq] at hbefore
        subst hbefore
        cases hwritten : written.find? t.tiles.data with
        | some before =>
          left
          rw [hfile, hwritten]
          rfl
        | none =>
          right
          have hnew : written.contains t.tiles.data = false := by
            rw [Table.contains, hwritten]
            rfl
          refine ⟨key, mem_cons_self, t, hfound, rfl, ?_, ?_⟩
          · rw [hfile, hwritten]
            rfl
          · rw [hnew]
            exact mem_append_left _ (mem_singleton_self _)
      · rw [Table.find?_insert_of_ne _ hdata] at hbefore
        exact .inl hbefore
    · exact .inr ⟨key', mem_cons_of_mem _ hkey', t', hfound', hdata, hname, mem_append_right _ hmem⟩
  · intro e he
    rcases mem_append.1 he with he | he
    · cases hwritten : written.find? t.tiles.data with
      | some before =>
        rw [Table.contains, hwritten] at he
        cases he
      | none =>
        rw [Table.contains, hwritten, Option.isSome_none, if_neg Bool.false_ne_true,
          mem_singleton] at he
        rw [he, hfile, hwritten]
        exact ⟨key, mem_cons_self, t, hfound, rfl⟩
    · obtain ⟨key', hkey', hstray⟩ := hrest.saves e he
      exact ⟨key', mem_cons_of_mem _ hkey', hstray⟩
  · intro key' hkey' t' hfound'
    rcases mem_cons.1 hkey' with rfl | hkey'
    · rw [hfound, Option.some.injEq] at hfound'
      exact ⟨file, hfound' ▸ hkept⟩
    · exact hrest.present key' hkey' t' hfound'
  · obtain ⟨blocks, hblocks, rfl⟩ := hrest.blocks
    refine ⟨_ :: blocks, ?_, flatten_cons.symm⟩
    rw [strays, filter_cons_of_pos hcontains]
    refine .cons ⟨spot, ?_⟩ hblocks
    rw [fileIn, hfound, Option.bind_some, hkept]
    rfl

theorem Strays.skip {saves : List (String × ByteArray)}
    (hfound : (d.survey ver).found.find? key = none)
    (hrest : d.Strays ver keys written written' saves lines) :
    d.Strays ver (key :: keys) written written' saves lines := by
  have hcontains : ¬(d.survey ver).found.contains key = true := by
    rw [Table.contains, hfound]
    exact Bool.false_ne_true
  refine ⟨hrest.grows, ?_, ?_, ?_, ?_⟩
  · intro data file hfile
    rcases hrest.origin data file hfile with hbefore | ⟨key', hkey', hstray⟩
    · exact .inl hbefore
    · exact .inr ⟨key', mem_cons_of_mem _ hkey', hstray⟩
  · intro e he
    obtain ⟨key', hkey', hstray⟩ := hrest.saves e he
    exact ⟨key', mem_cons_of_mem _ hkey', hstray⟩
  · intro key' hkey' t' hfound'
    rcases mem_cons.1 hkey' with rfl | hkey'
    · rw [hfound] at hfound'
      cases hfound'
    · exact hrest.present key' hkey' t' hfound'
  · rw [strays, filter_cons_of_neg hcontains]
    exact hrest.blocks

theorem of_strays {all : List Line}
    (h : (keys.foldlM (fun (written, lines) key => do
        let (written, more) ← d.dumpMissing ver written key
        return (written, lines ++ more)) (written, lines)).on w = (.ok (written', all), w')) :
    ∃ saves more, d.Saved P saves w w' ∧ d.Strays ver keys written written' saves more ∧
      all = lines ++ more := by
  induction keys generalizing w written lines with
  | nil =>
    cases h
    refine ⟨[], [], .refl d P _, ⟨fun _ _ => id, fun _ _ => .inl, nofun, nofun, [], .nil, rfl⟩, ?_⟩
    rw [append_nil]
  | cons key keys ih =>
    simp only [foldlM_cons, on_bind_ok_iff, on_pure, Prod.mk.injEq, ok.injEq] at h
    obtain ⟨_, v, ⟨⟨written₁, first⟩, _, hfirst, rfl, rfl⟩, hrest⟩ := h
    obtain ⟨saves, more, hsaved, hstrays, rfl⟩ := ih hrest
    rcases of_dumpMissing hfirst with ⟨hfound, hresult, rfl⟩ | ⟨t, spot, file, hfound, hfile,
      hresult, hsaved₁⟩
    · obtain ⟨rfl, rfl⟩ := Prod.mk.inj hresult
      exact ⟨saves, more, hsaved, hstrays.skip hfound, by rw [append_nil]⟩
    · obtain ⟨rfl, rfl⟩ := Prod.mk.inj hresult
      exact ⟨_, _, hsaved₁.trans hsaved, hstrays.step hfound hfile, append_assoc ..⟩

def versionSaves (d : Dump) (v : Version) : List (String × ByteArray) :=
  (d.comparison.classes.position.map fun key => (d.title key, d.storedOf v key)) ++
    d.comparison.classes.both.map fun key => (d.title key ++ "_" ++ v.name, d.storedOf v key)

theorem of_mapM_dumpMoved (h : (keys.mapM (d.dumpMoved ver file)).on w = (.ok all, w')) :
    d.Saved P (keys.map fun key => (file (d.title key), d.storedOf ver key)) w w' ∧
      List.Forall₂ (d.IsBlock (d.otherTitles ver) fun key => file (d.title key)) keys all := by
  have hstep : ∀ key w w' lines, (d.dumpMoved ver file key).on w = (.ok lines, w') →
      d.Saved P [(file (d.title key), d.storedOf ver key)] w w' ∧
        d.IsBlock (d.otherTitles ver) (fun key => file (d.title key)) key lines :=
    fun _ _ _ _ hmoved => of_dumpMoved hmoved
  rw [map_eq_flatMap]
  exact Saved.of_mapM hstep h

/-- **The source of a version**: the tilesets whose place differs, then those that it has alone. -/
theorem of_dumpVersion (h : (d.dumpVersion written ver).on w = (.ok written', w')) :
    ∃ moved both missing saves,
      List.Forall₂ (d.IsBlock (d.otherTitles ver) d.title) d.comparison.classes.position moved ∧
      List.Forall₂ (d.IsBlock (d.otherTitles ver) fun key => d.title key ++ "_" ++ ver.name)
        d.comparison.classes.both both ∧
      d.Strays ver d.comparison.classes.missing written written' saves missing ∧
      d.Saved (· = plainPath (versionPath d.folders ver)) (d.versionSaves ver ++ saves) w w' ∧
      w'.read (versionPath d.folders ver) = .ok (render
        ([.inclusion (sharedPath d.folders), .blank] ++ moved.flatten ++ both.flatten ++
          missing)).toUTF8 := by
  simp only [dumpVersion, on_bind_ok_iff, on_pure, Prod.mk.injEq, ok.injEq] at h
  obtain ⟨out, v, hcreate, moved, u, hmoved, both, u', hboth, ⟨written₁, missing⟩, u'', hmissing,
    ⟨⟩, w₁, happend, rfl, rfl⟩ := h
  obtain ⟨hsaved, hblocks⟩ := of_mapM_dumpMoved hmoved
  obtain ⟨hsaved', hblocks'⟩ := of_mapM_dumpMoved hboth
  obtain ⟨saves, more, hsaved'', hstrays, rfl⟩ := of_strays hmissing
  obtain ⟨hall, hread⟩ := of_source (endsIn_versionPath d.folders ver) hcreate
    ((hsaved.trans hsaved').trans hsaved'') happend
  exact ⟨moved, both, missing, saves, hblocks, hblocks', hstrays, hall, hread⟩

end Dump

/-! ### The whole dump -/

def namesPath (f : Folders) : String := Path.join f.resources "meta_tileset_names.tbl"

def stopName : Int × String := (addressTableEnd, "TilesetSourceAddressTableEnd")

/-- The surveys and the names that a dump of a workspace works with. -/
structure Dump.Of (d : Dump) (f : Folders) (w : Workspace) : Prop where
  folders : d.folders = f
  survey : ∀ v : Version, ∃ image, w.read v.image = .ok image ∧ Survey.read image = .ok (d.survey v)
  comparison : d.comparison = .ofSurveys d.first d.second
  /-- The names are given by a file or new. -/
  names : (∃ given, (Charset.readTable (namesPath f)).on w = (.ok given, w) ∧
      d.names = given.insert stopName.1 stopName.2) ∨
    w.hasPath (namesPath f) = false ∧ d.names = Table.ofList
      (stopName :: (freshNames d.comparison.classes).map fun e => ((e.1 : Int), e.2))

theorem not_names_image (f : Folders) (v : Version) :
    plainPath v.image ≠ plainPath (namesPath f) := by
  intro heq
  exact (heq ▸ endsIn_image v).not_endsIn (by decide)
    (endsIn_plainPath_join _ (endsIn_append "meta_tileset_names" ".tbl") (by decide))

theorem of_chooseNames {given : Option Charset} {names : Charset}
    (h : (chooseNames (namesPath f) given c).on w = (.ok names, w')) :
    SameBut (· = plainPath (namesPath f)) w w' ∧
      ((∃ old, given = some old ∧ names = old.insert stopName.1 stopName.2) ∨
        given = none ∧ names = Table.ofList
          (stopName :: (freshNames c).map fun e => ((e.1 : Int), e.2))) := by
  cases given with
  | some old =>
    cases h
    exact ⟨.refl _ _, .inl ⟨old, rfl, rfl⟩⟩
  | none =>
    simp only [chooseNames, on_bind_ok_iff, on_pure, Prod.mk.injEq, ok.injEq] at h
    obtain ⟨⟨⟩, v, hwrite, rfl, rfl⟩ := h
    exact ⟨of_writeFile hwrite, .inr ⟨rfl, rfl⟩⟩

/-- **A dump that ends**: the shared source is written, then that of each version, then the lists of
names. -/
theorem exists_of_dump (h : (dump f).on w = (.ok (), w')) :
    ∃ (d : Dump) (v₁ v₂ v₃ v₄ : Workspace) (first second : Table (Array UInt8) String), d.Of f w ∧
      SameBut (· = plainPath (namesPath f)) w v₁ ∧
      d.dumpShared.on v₁ = (.ok (), v₂) ∧
      (d.dumpVersion ∅ .kabuto).on v₂ = (.ok first, v₃) ∧
      (d.dumpVersion first .kuwagata).on v₃ = (.ok second, v₄) ∧
      d.dumpIndex.on v₄ = (.ok (), w') := by
  simp only [dump, Version.all, foldlM_cons, foldlM_nil, on_discard_ok_iff, on_bind_ok_iff, on_pure,
    on_lift, Prod.mk.injEq, ok.injEq, on_readFile_ok_iff] at h
  obtain ⟨given, _, hgiven, image₁, _, ⟨himage₁, rfl⟩, s₁, _, ⟨hs₁, rfl⟩, image₂, u,
    ⟨himage₂, rfl⟩, s₂, _, ⟨hs₂, rfl⟩, names, v₁, hnames, ⟨⟩, v₂, hshared, ⟨⟩, _,
    ⟨_, first, v₃, hfirst, second, v₄, hsecond, rfl, rfl⟩, hindex⟩ := h
  obtain ⟨hsame, hgiven⟩ := of_readOrCreate (Quiet.readTable _) hgiven
  obtain ⟨hsame', hchosen⟩ := of_chooseNames hnames
  refine ⟨_, v₁, v₂, v₃, v₄, first, second, ⟨rfl, ?_, rfl, ?_⟩, hsame.trans hsame', hshared, hfirst,
    hsecond, hindex⟩
  · intro v
    have hread : ∀ image, u.read v.image = .ok image → w.read v.image = .ok image :=
      fun image h => hsame.symm.read h (not_names_image f v)
    cases v with
    | kabuto => exact ⟨image₁, hread image₁ himage₁, hs₁⟩
    | kuwagata => exact ⟨image₂, hread image₂ himage₂, hs₂⟩
  · rcases hgiven with ⟨old, rfl, hread⟩ | ⟨rfl, hpath⟩
    · rcases hchosen with ⟨_, hold, hnew⟩ | ⟨hnone, -⟩
      · cases hold
        exact .inl ⟨old, hread, hnew⟩
      · cases hnone
    · rcases hchosen with ⟨_, hold, -⟩ | ⟨-, hnew⟩
      · cases hold
      · exact .inr ⟨hpath, hnew⟩

/-! ### New names -/

theorem Dump.Of.names_of_fresh {d : Dump} (hd : d.Of f w)
    (hfresh : w.hasPath (namesPath f) = false) :
    d.names = Table.ofList
      (stopName :: (freshNames d.comparison.classes).map fun e => ((e.1 : Int), e.2)) := by
  rcases hd.names with ⟨given, hread, -⟩ | ⟨-, hnames⟩
  · simp only [Charset.readTable, readText, on_bind_ok_iff, on_readFile_ok_iff] at hread
    obtain ⟨_, _, ⟨data, _, ⟨hfile, -⟩, -⟩, -⟩ := hread
    obtain ⟨key, htarget, hfile⟩ := read_ok_iff.1 hfile
    obtain ⟨hlocate, -⟩ := target_ok_iff.1 htarget
    have hisFile : w.isFile key = true := by
      rw [isFile, Table.contains, hfile]
      rfl
    rw [hasPath, hlocate] at hfresh
    simp [hisFile] at hfresh
  · exact hnames

theorem lookup_map_key (names : Nat → String) (keys : List Nat) (key : Nat) :
    (keys.map fun k : Nat => ((k : Int), names k)).lookup (key : Int) =
      if key ∈ keys then some (names key) else none := by
  induction keys with
  | nil => rfl
  | cons k keys ih =>
    rw [map_cons, lookup_cons]
    by_cases hk : key = k
    · subst hk
      simp
    · have hne : ((key : Int) == (k : Int)) = false := by
        rw [beq_eq_false_iff_ne]
        exact fun h => hk (Int.ofNat_inj.1 h)
      rw [hne, ih]
      simp [hk]

theorem find?_freshNames (hend : addressTableEnd ∉ c.keys) (key : Nat) :
    (Table.ofList (stopName :: (freshNames c).map fun e => ((e.1 : Int), e.2))).find? (key : Int) =
      if key = addressTableEnd then some stopName.2
      else if key ∈ c.keys then some (freshName c key) else none := by
  have hmem : key ∈ (c.keys.mergeSort fun a b => decide (a ≤ b)).reverse ↔ key ∈ c.keys := by
    rw [mem_reverse, mem_mergeSort]
  rw [Table.find?_ofList, reverse_cons, lookup_append, freshNames, map_map, ← map_reverse]
  change Option.or (List.lookup _ (List.map (fun k : Nat => ((k : Int), freshName c k)) _)) _ = _
  rw [lookup_map_key]
  by_cases hstop : key = addressTableEnd
  · subst hstop
    rw [if_neg (fun h => hend (hmem.1 h)), Option.none_or]
    exact lookup_cons_self
  · rw [if_neg hstop]
    by_cases hkey : key ∈ c.keys
    · rw [if_pos (hmem.2 hkey), if_pos hkey, Option.some_or]
    · rw [if_neg fun h => hkey (hmem.1 h), if_neg hkey]
      have hne : ((key : Int) == (addressTableEnd : Int)) = false := by
        rw [beq_eq_false_iff_ne]
        exact fun h => hstop (Int.ofNat_inj.1 h)
      rw [stopName, lookup_cons, hne]
      rfl

end Cartridge.Tileset
