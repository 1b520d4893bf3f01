import Cartridge.Proofs.Tileset.Balance
import Cartridge.Proofs.Tileset.Drawable

/-!
# Dumps that finish

A dump of two versions looks up the other names of each version where it writes a tileset to the
source of that version.  A version in which no missing key shares a tileset has no table of other
names, and then the look-up fails.

Main result: `dump_finishes_iff_balanced`.
-/

open List

namespace Cartridge

open Text.Numeral

namespace Job

variable {α β : Type} {folders : List String} {fault : Fault} {job : Job α} {next f : α → Job β}
  {x : Except Fault α} {as : List α}

/-! ### Jobs that fail -/

/-- The job fails with the fault on every workspace with the given folders. -/
def Stops (folders : List String) (fault : Fault) (job : Job α) : Prop :=
  ∀ w, w.folders = folders → ∃ w', job.on w = (.error fault, w')

theorem Stops.bind (hjob : job.Stops folders fault) : (job >>= next).Stops folders fault := by
  intro w hw
  obtain ⟨w', hon⟩ := hjob w hw
  exact ⟨w', by rw [on_bind, hon]⟩

theorem Stops.after (hjob : job.Ends folders) (hnext : ∀ a, (next a).Stops folders fault) :
    (job >>= next).Stops folders fault := by
  intro w hw
  obtain ⟨a, v, hon, hv⟩ := hjob w hw
  obtain ⟨w', hon'⟩ := hnext a v hv
  exact ⟨w', (on_bind_of_ok hon).trans hon'⟩

theorem Stops.lift (h : x = .error fault) : (lift x).Stops folders fault :=
  fun w _ => ⟨w, by rw [on_lift, h]⟩

theorem Stops.lift_bind {a : α} (h : x = .ok a) (hnext : (next a).Stops folders fault) :
    (Job.lift x >>= next).Stops folders fault := by
  intro w hw
  obtain ⟨w', hon⟩ := hnext w hw
  exact ⟨w', (on_bind_of_ok (by rw [on_lift, h])).trans hon⟩

theorem Stops.mapM (hne : as ≠ []) (h : ∀ a ∈ as, (f a).Stops folders fault) :
    (as.mapM f).Stops folders fault := by
  cases as with
  | nil => exact absurd rfl hne
  | cons a as =>
    exact (h a mem_cons_self).bind

theorem Stops.foldlM {f : β → α → Job β} (hne : as ≠ [])
    (h : ∀ a ∈ as, ∀ b, (f b a).Stops folders fault) (b : β) :
    (as.foldlM f b).Stops folders fault := by
  cases as with
  | nil => exact absurd rfl hne
  | cons a as =>
    exact (h a mem_cons_self b).bind

end Job

namespace Tileset

open Workspace (SameBut plainPath)

variable {f : Folders} {w : Workspace} {images : Version → ByteArray}
  {entries : Version → List Listing} {image : ByteArray} {ls : List Listing}

namespace Dump

def CanSave (f : Folders) (w : Workspace) (stem : String) : Prop :=
  (∃ k, w.target (Path.join f.stored (stem ++ ".malias")) = .ok k) ∧
    ∃ k, w.target (Path.join f.pictures (stem ++ ".malias.png")) = .ok k

/-- What a dump looks up and writes is there, but for the other names of a version. -/
structure Ready (d : Dump) (w : Workspace) (images : Version → ByteArray)
    (entries : Version → List Listing) : Prop where
  sound : d.Sound images entries
  lists : ∀ name ∈ ["meta_tileset_load_offsets.tbl", "meta_tileset_index.tbl"],
    ∃ key, w.target (Path.join d.folders.resources name) = .ok key
  shared : ∃ key, w.target (sharedPath d.folders) = .ok key
  own : ∀ v, ∃ key, w.target (versionPath d.folders v) = .ok key
  stop : ∃ name, d.names.find? addressTableEnd = some name
  named : ∀ key ∈ d.comparison.classes.keys, ∃ name, d.names.find? key = some name ∧
    CanSave d.folders w name ∧ ∀ v : Version, CanSave d.folders w (name ++ "_" ++ v.name)
  drawn : ∀ v key t, (d.survey v).found.find? key = some t →
    (∃ file, Picture.encode t.tiles.data.toList none none = .ok file) ∧
      ∃ a, Address.ofFlat t.position = .ok a

namespace Ready

variable {d : Dump} {v : Version} {key : Nat} {t : Found} {name stem : String}

theorem ends_save (h : d.Ready w images entries) (ht : (d.survey v).found.find? key = some t)
    (hstem : CanSave d.folders w stem) :
    (d.save stem t.tiles).Ends w.folders := by
  obtain ⟨⟨_, hstored⟩, ⟨_, hpicture⟩⟩ := hstem
  obtain ⟨⟨_, hfile⟩, -⟩ := h.drawn v key t ht
  exact Dump.ends_save hstored hpicture hfile

theorem exists_dataLines (h : d.Ready w images entries)
    (ht : (d.survey v).found.find? key = some t) (name file : String)
    (others : List Assembly.Line) :
    ∃ lines, d.dataLines name t.position others file = .ok lines := by
  obtain ⟨-, a, ha⟩ := h.drawn v key t ht
  exact ⟨_, bind_ok_iff.2 ⟨_, bind_ok_iff.2 ⟨a, ha, rfl⟩, rfl⟩⟩

theorem exists_found {same : Bool} (h : Paired d.first.found d.second.found same key)
    (v : Version) : ∃ t, (d.survey v).found.find? key = some t := by
  obtain ⟨a, b, ha, hb, -⟩ := h
  cases v with
  | kabuto => exact ⟨a, ha⟩
  | kuwagata => exact ⟨b, hb⟩

section

variable (h : d.Ready w images entries)

include h

theorem exists_name (key : Nat) (t : Found) (ht : d.first.found.find? key = some t) :
    ∃ name, d.names.find? key = some name := by
  obtain ⟨name, hname, -⟩ := h.named key (h.sound.mem_keys_iff.2 ⟨.kabuto, t, ht⟩)
  exact ⟨name, hname⟩

/-! ### The shared source -/

theorem ends_dumpCommon (hkey : key ∈ d.comparison.classes.common) :
    (d.dumpCommon key).Ends w.folders := by
  obtain ⟨t, ht⟩ := exists_found (h.sound.sorted.common key hkey) .kabuto
  obtain ⟨name, hname, hstem, -⟩ := h.named key (Classes.mem_keys_of_common hkey)
  obtain ⟨lines, hlines⟩ := h.exists_dataLines ht name name []
  exact .lift_bind (demand_ok_iff.2 ht) (.lift_bind (demand_ok_iff.2 hname)
    (.bind (h.ends_save ht hstem) fun _ => .lift hlines))

theorem ends_dumpTiles (hkey : key ∈ d.comparison.classes.tiles) :
    (d.dumpTiles key).Ends w.folders := by
  have hpaired := h.sound.sorted.tiles key hkey
  obtain ⟨t, ht⟩ := exists_found hpaired .kabuto
  obtain ⟨name, hname, -, hstems⟩ := h.named key (Classes.mem_keys_of_own (.inl hkey))
  obtain ⟨lines, hlines⟩ := h.exists_dataLines ht name (name ++ "_\x7bGAMEVERSION\x7d") []
  refine .lift_bind (demand_ok_iff.2 ht) (.lift_bind (demand_ok_iff.2 hname)
    (.bind (.forIn fun v _ => ?_) fun _ => .lift hlines))
  obtain ⟨t', ht'⟩ := exists_found hpaired v
  exact .lift_bind (demand_ok_iff.2 ht') (.bind (h.ends_save ht' (hstems v)) fun _ => .pure _)

theorem ends_dumpShared : d.dumpShared.Ends w.folders := by
  obtain ⟨_, hshared⟩ := h.shared
  obtain ⟨tables, htables⟩ := Dump.exists_tableLines (h.sound.survey .kabuto) h.exists_name h.stop
  exact .bind (.create hshared) fun _ => .lift_bind htables
    (.bind (.mapM fun _ hkey => h.ends_dumpCommon hkey) fun _ =>
      .bind (.mapM fun _ hkey => h.ends_dumpTiles hkey) fun _ => .append _ _)

/-! ### The source of a version -/

theorem exists_aliasLines (hsome : (d.aliases v).isSome) (key : Nat) :
    ∃ lines, d.aliasLines v key = .ok lines := by
  obtain ⟨aliases, haliases⟩ := Option.isSome_iff_exists.1 hsome
  have hothers : ∀ other ∈ (aliases.find? key).getD [], ∃ name,
      d.names.find? other = some name := by
    intro other hother
    have hget := getD_aliasesOf (sharedKeys (d.survey v) d.comparison.classes.missing) key
    rw [← h.sound.aliases_eq, haliases, Option.bind_some] at hget
    rw [hget] at hother
    obtain ⟨e, he, rfl⟩ := mem_map.1 hother
    have hmissing := (mem_sharedKeys_iff.1 (mem_filter.1 he).1).1
    obtain ⟨name, hname, -⟩ := h.named e.1 (Classes.mem_keys_of_missing hmissing)
    exact ⟨name, hname⟩
  obtain ⟨lines, hlines⟩ := exists_mapM_eq_ok (f := fun other => do
      return Assembly.Line.label (← d.nameOf other)) fun other hother => by
    obtain ⟨name, hname⟩ := hothers other hother
    exact ⟨_, bind_ok_iff.2 ⟨name, demand_ok_iff.2 hname, rfl⟩⟩
  exact ⟨lines, bind_ok_iff.2 ⟨aliases, demand_ok_iff.2 haliases, hlines⟩⟩

end

theorem aliasLines_eq_error (hnone : d.aliases v = none) (key : Nat) :
    d.aliasLines v key = .error (.plain .key) := by
  rw [aliasLines, hnone]
  rfl

section Moved

variable {file : String → String}

section

variable (h : d.Ready w images entries) (hkey : key ∈ d.comparison.classes.keys)

include h hkey

theorem exists_stem (hfile : file = id ∨ file = (· ++ "_" ++ v.name)) :
    ∃ name, d.names.find? key = some name ∧ CanSave d.folders w (file name) := by
  obtain ⟨name, hname, hstem, hstems⟩ := h.named key hkey
  rcases hfile with rfl | rfl
  · exact ⟨name, hname, hstem⟩
  · exact ⟨name, hname, hstems v⟩

theorem ends_dumpMoved (ht : (d.survey v).found.find? key = some t)
    (hfile : file = id ∨ file = (· ++ "_" ++ v.name)) (hsome : (d.aliases v).isSome) :
    (d.dumpMoved v file key).Ends w.folders := by
  obtain ⟨name, hname, hstem⟩ := h.exists_stem hkey hfile
  obtain ⟨others, hothers⟩ := h.exists_aliasLines hsome key
  obtain ⟨lines, hlines⟩ := h.exists_dataLines ht name (file name) others
  exact .lift_bind (demand_ok_iff.2 ht) (.lift_bind (demand_ok_iff.2 hname)
    (.bind (h.ends_save ht hstem) fun _ => .lift_bind hothers (.lift hlines)))

theorem stops_dumpMoved (ht : (d.survey v).found.find? key = some t)
    (hfile : file = id ∨ file = (· ++ "_" ++ v.name)) (hnone : d.aliases v = none) :
    (d.dumpMoved v file key).Stops w.folders (.plain .key) := by
  obtain ⟨name, hname, hstem⟩ := h.exists_stem hkey hfile
  exact .lift_bind (demand_ok_iff.2 ht) (.lift_bind (demand_ok_iff.2 hname)
    (.after (h.ends_save ht hstem) fun _ => .bind (.lift (aliasLines_eq_error hnone key))))

end

end Moved

theorem ends_saveMissing (h : d.Ready w images entries) (ht : (d.survey v).found.find? key = some t)
    (hstem : CanSave d.folders w (name ++ "_" ++ v.name)) (written : Table (Array UInt8) String) :
    (if !written.contains t.tiles.data then
      d.save ((written.find? t.tiles.data).getD (name ++ "_" ++ v.name)) t.tiles
      else pure () : Job Unit).Ends w.folders := by
  cases hfound : written.find? t.tiles.data with
  | some file =>
    rw [Table.contains, hfound]
    exact .pure ()
  | none =>
    rw [Table.contains, hfound]
    exact h.ends_save ht hstem

theorem dumpMissing_eq (ht : (d.survey v).found.find? key = some t)
    (hname : d.names.find? key = some name) (written : Table (Array UInt8) String) :
    d.dumpMissing v written key =
      (if !written.contains t.tiles.data then
        d.save ((written.find? t.tiles.data).getD (name ++ "_" ++ v.name)) t.tiles
        else pure ()) >>= fun _ => do
      let others ← Job.lift (d.aliasLines v key)
      let lines ← Job.lift (d.dataLines name t.position others
        ((written.find? t.tiles.data).getD (name ++ "_" ++ v.name)))
      return (written.insert t.tiles.data
        ((written.find? t.tiles.data).getD (name ++ "_" ++ v.name)), lines) := by
  have hlift : Job.lift (d.nameOf key) = pure name := by
    rw [nameOf, hname]
    rfl
  rw [dumpMissing, ht]
  simp only [hlift, pure_bind]
  cases written.contains t.tiles.data with
  | true | false => rfl

section

variable (h : d.Ready w images entries)

include h

theorem ends_dumpMissing (hkey : key ∈ d.comparison.classes.keys) (hsome : (d.aliases v).isSome)
    (written : Table (Array UInt8) String) : (d.dumpMissing v written key).Ends w.folders := by
  cases ht : (d.survey v).found.find? key with
  | none =>
    rw [dumpMissing, ht]
    exact .pure _
  | some t =>
    obtain ⟨name, hname, -, hstems⟩ := h.named key hkey
    obtain ⟨others, hothers⟩ := h.exists_aliasLines hsome key
    obtain ⟨lines, hlines⟩ := h.exists_dataLines ht name
      ((written.find? t.tiles.data).getD (name ++ "_" ++ v.name)) others
    rw [dumpMissing_eq ht hname]
    refine .bind (h.ends_saveMissing ht (hstems v) written) fun _ => ?_
    exact .lift_bind hothers (.lift_bind hlines (.pure _))

theorem stops_dumpMissing (hkey : key ∈ d.comparison.classes.keys)
    (ht : (d.survey v).found.find? key = some t) (hnone : d.aliases v = none)
    (written : Table (Array UInt8) String) :
    (d.dumpMissing v written key).Stops w.folders (.plain .key) := by
  obtain ⟨name, hname, -, hstems⟩ := h.named key hkey
  rw [dumpMissing_eq ht hname]
  exact .after (h.ends_saveMissing ht (hstems v) written) fun _ =>
    .bind (.lift (aliasLines_eq_error hnone key))

theorem ends_dumpVersion (hv : (d.aliases v).isSome ∨ d.comparison.classes.apart = [])
    (written : Table (Array UInt8) String) : (d.dumpVersion written v).Ends w.folders := by
  obtain ⟨_, hown⟩ := h.own v
  have hsome : ∀ key ∈ d.comparison.classes.apart, (d.aliases v).isSome := by
    rcases hv with hsome | hnil
    · exact fun _ _ => hsome
    · rw [hnil]
      exact forall_mem_nil _
  refine .bind (.create hown) fun _ => .bind (.mapM fun key hkey => ?_) fun _ =>
    .bind (.mapM fun key hkey => ?_) fun _ => .bind (.foldlM (fun key hkey e => ?_) _) fun _ =>
      .bind (.append _ _) fun _ => .pure _
  · have hapart := Classes.mem_apart_iff.2 (.inl hkey)
    obtain ⟨t, ht⟩ := exists_found (h.sound.sorted.position key hkey) v
    exact h.ends_dumpMoved (Classes.mem_keys_of_apart hapart) ht (.inl rfl) (hsome key hapart)
  · have hapart := Classes.mem_apart_iff.2 (.inr (.inl hkey))
    obtain ⟨t, ht⟩ := exists_found (h.sound.sorted.both key hkey) v
    exact h.ends_dumpMoved (Classes.mem_keys_of_apart hapart) ht (.inr rfl) (hsome key hapart)
  · have hapart := Classes.mem_apart_iff.2 (.inr (.inr hkey))
    exact .bind (h.ends_dumpMissing (Classes.mem_keys_of_apart hapart) (hsome key hapart) _)
      fun _ => .pure _

theorem stops_dumpVersion (hnone : d.aliases v = none) (hne : d.comparison.classes.apart ≠ [])
    (written : Table (Array UInt8) String) :
    (d.dumpVersion written v).Stops w.folders (.plain .key) := by
  obtain ⟨_, hown⟩ := h.own v
  refine .after (.create hown) fun _ => ?_
  by_cases hposition : d.comparison.classes.position = []
  · refine .after (.mapM (hposition ▸ forall_mem_nil _)) fun _ => ?_
    by_cases hboth : d.comparison.classes.both = []
    · refine .after (.mapM (hboth ▸ forall_mem_nil _)) fun _ => ?_
      have hmissing : d.comparison.classes.missing ≠ [] := by
        rwa [Classes.apart, hposition, hboth] at hne
      refine .bind (.foldlM hmissing (fun key hkey e => ?_) _)
      obtain ⟨t, ht⟩ := Option.isSome_iff_exists.1 (h.sound.aliases_eq_none_iff.1 hnone key hkey)
      exact .bind (h.stops_dumpMissing (Classes.mem_keys_of_missing hkey) ht hnone _)
    · refine .bind (.mapM hboth fun key hkey => ?_)
      obtain ⟨t, ht⟩ := exists_found (h.sound.sorted.both key hkey) v
      exact h.stops_dumpMoved (Classes.mem_keys_of_own (.inr (.inl hkey))) ht (.inr rfl) hnone
  · refine .bind (.mapM hposition fun key hkey => ?_)
    obtain ⟨t, ht⟩ := exists_found (h.sound.sorted.position key hkey) v
    exact h.stops_dumpMoved (Classes.mem_keys_of_position hkey) ht (.inl rfl) hnone

/-! ### The whole writing -/

theorem ends_dumpIndex : d.dumpIndex.Ends w.folders := by
  obtain ⟨_, hoffsets⟩ := h.lists "meta_tileset_load_offsets.tbl" (by simp)
  obtain ⟨_, hindex⟩ := h.lists "meta_tileset_index.tbl" (by simp)
  exact Dump.ends_dumpIndex (h.sound.survey .kabuto) h.exists_name h.stop hoffsets hindex

/-- **The writing ends if the versions are balanced.** -/
theorem ends_write (hbalanced : Balanced entries) : d.write.Ends w.folders := by
  have hall := h.sound.balanced_iff.1 hbalanced
  exact .bind h.ends_dumpShared fun _ =>
    .bind (.discard (.foldlM (fun v _ written => h.ends_dumpVersion (hall v) written) _))
      fun _ => h.ends_dumpIndex

/-- **Otherwise it fails**, in the source of the first version without other names. -/
theorem stops_write (hnot : ¬Balanced entries) : d.write.Stops w.folders (.plain .key) := by
  simp only [h.sound.balanced_iff, not_forall, not_or, Option.not_isSome_iff_eq_none] at hnot
  obtain ⟨v, hnone, hne⟩ := hnot
  refine .after h.ends_dumpShared fun _ => .bind (.bind ?_)
  cases hfirst : d.aliases .kabuto with
  | none => exact .bind (h.stops_dumpVersion hfirst hne _)
  | some aliases =>
    have hsecond : d.aliases .kuwagata = none := by
      cases v with
      | kabuto => cases hnone.symm.trans hfirst
      | kuwagata => exact hnone
    refine .after (h.ends_dumpVersion (.inl (hfirst ▸ rfl)) _) fun written => ?_
    exact .bind (h.stops_dumpVersion hsecond hne written)

end

end Ready

end Dump

/-! ### Well-formed images -/

/-- The tables of an image can be read, and an entry that is not empty leads to a tileset of whole
tiles. -/
structure WellFormed (image : ByteArray) (ls : List Listing) : Prop where
  listed : readListings image = .ok ls
  tiles : ∀ l ∈ ls, l.position ≠ emptyPosition →
    ∃ t n, readAt image l.position = .ok t ∧ t.data.size = 16 * n ∧ 0 < n

/-- The files of a dump with new names can be written. -/
structure Room (f : Folders) (w : Workspace) (entries : Version → List Listing) : Prop where
  lists : ∀ name ∈ ["meta_tileset_names.tbl", "meta_tileset_load_offsets.tbl",
    "meta_tileset_index.tbl"], ∃ key, w.target (Path.join f.resources name) = .ok key
  shared : ∃ key, w.target (Dump.sharedPath f) = .ok key
  own : ∀ v, ∃ key, w.target (Dump.versionPath f v) = .ok key
  tiles : ∀ v key p, Introduces (entries v) key p → ∀ mark ∈ ["", "_GAMEVERSION"],
    Dump.CanSave f w ("Tileset" ++ upperHex 4 key ++ mark) ∧ ∀ u : Version,
      Dump.CanSave f w ("Tileset" ++ upperHex 4 key ++ mark ++ "_" ++ u.name)

variable {surveys : Version → Survey}

theorem WellFormed.exists_read (h : WellFormed image ls) : ∃ s, Survey.read image = .ok s := by
  refine Tileset.exists_read h.listed fun l hl hempty => ?_
  obtain ⟨t, -, ht, -⟩ := h.tiles l hl hempty
  exact ⟨t, ht⟩

theorem WellFormed.drawn {s : Survey} {key : Nat} {t : Found} (h : WellFormed image ls)
    (hs : s.Sound image ls) (ht : s.found.find? key = some t) :
    (∃ file, Picture.encode t.tiles.data.toList none none = .ok file) ∧
      ∃ a, Address.ofFlat t.position = .ok a := by
  obtain ⟨-, hempty, hread⟩ := hs.found key t ht
  obtain ⟨i, l, -, hl, hposition⟩ := hs.exists_listing ht
  have hmem := mem_of_getElem? hl
  obtain ⟨t', n, hread', hsize, hn⟩ := h.tiles l hmem (hposition ▸ hempty)
  rw [hposition, hread, Except.ok.injEq] at hread'
  rw [← hread'] at hsize
  rw [← hposition] at hread ⊢
  exact ⟨exists_encode_of_readAt hread hsize hn, exists_ofFlat_position h.listed hmem⟩

section

variable (hformed : ∀ v, WellFormed (images v) (entries v))
  (hs : ∀ v, Survey.read (images v) = .ok (surveys v))

include hformed hs

theorem sound_fresh :
    (Dump.fresh f (surveys .kabuto) (surveys .kuwagata)).Sound images entries := by
  have hsound : ∀ v, (surveys v).Sound (images v) (entries v) := by
    intro v
    obtain ⟨ls, hls, hsound⟩ := sound_read (hs v)
    rw [(hformed v).listed, Except.ok.injEq] at hls
    rwa [hls]
  refine ⟨fun v => ?_, fun v => length_readListings (hformed v).listed, rfl⟩
  cases v with
  | kabuto => exact hsound .kabuto
  | kuwagata => exact hsound .kuwagata

theorem ready_fresh (hroom : Room f w entries) :
    (Dump.fresh f (surveys .kabuto) (surveys .kuwagata)).Ready w images entries := by
  have hsound := sound_fresh (f := f) hformed hs
  have hnames := find?_freshNames hsound.notMem_addressTableEnd
  exact
    { sound := hsound
      lists := fun name hname => hroom.lists name (mem_cons_of_mem _ hname)
      shared := hroom.shared
      own := hroom.own
      stop := ⟨stopName.2, (hnames addressTableEnd).trans (if_pos rfl)⟩
      drawn := fun v key t ht => (hformed v).drawn (hsound.survey v) ht
      named := by
        intro key hkey
        have hne : key ≠ addressTableEnd := fun heq => hsound.notMem_addressTableEnd (heq ▸ hkey)
        obtain ⟨v, t, ht⟩ := hsound.mem_keys_iff.1 hkey
        have hbrings := (hsound.survey v).find?_found_iff.1 ⟨t, ht, rfl⟩
        refine ⟨freshName (Comparison.ofSurveys (surveys .kabuto) (surveys .kuwagata)).classes key,
          (hnames key).trans ((if_neg hne).trans (if_pos hkey)),
          hroom.tiles v key t.position hbrings _ ?_⟩
        split <;> simp }

end

theorem exists_ready (hfresh : w.hasPath (namesPath f) = false)
    (himages : ∀ v : Version, w.read v.image = .ok (images v))
    (hformed : ∀ v, WellFormed (images v) (entries v)) (hroom : Room f w entries) :
    ∃ (d : Dump) (w₂ : Workspace), d.Ready w images entries ∧ w₂.folders = w.folders ∧
      (dump f).on w = d.write.on w₂ := by
  choose surveys hs using fun v => (hformed v).exists_read
  obtain ⟨key, hkey⟩ := hroom.lists "meta_tileset_names.tbl" mem_cons_self
  obtain ⟨w₂, hfolders, hdump⟩ := exists_on_dump_eq hfresh hkey (himages .kabuto)
    (himages .kuwagata) (hs .kabuto) (hs .kuwagata)
  exact ⟨_, w₂, ready_fresh hformed hs hroom, hfolders, hdump⟩

/-- **A dump finishes exactly if the versions are balanced.**  Two well-formed images are dumped to
the end, where there is no list of names yet, if both bring their tilesets with the same keys from
the same positions, or if each lacks a tileset that the other brings.  Otherwise a version has
tilesets of its own and no other names, and looking these up fails. -/
theorem dump_finishes_iff_balanced (hfresh : w.hasPath (namesPath f) = false)
    (himages : ∀ v : Version, w.read v.image = .ok (images v))
    (hformed : ∀ v, WellFormed (images v) (entries v)) (hroom : Room f w entries) :
    (Balanced entries → ∃ w', (dump f).on w = (.ok (), w')) ∧
      (¬Balanced entries → ∃ w', (dump f).on w = (.error (.plain .key), w')) := by
  obtain ⟨d, w₂, hready, hfolders, hdump⟩ := exists_ready hfresh himages hformed hroom
  rw [hdump]
  refine ⟨fun hbalanced => ?_, fun hnot => hready.stops_write hnot w₂ hfolders⟩
  obtain ⟨⟨⟩, w', hon, -⟩ := hready.ends_write hbalanced w₂ hfolders
  exact ⟨w', hon⟩

/-! ### Two entries -/

section TwoEntries

variable {a b : Listing} {key : Nat} {p : Int}

theorem introduces_filled_iff : Introduces (filled [a, b]) key p ↔ p ≠ emptyPosition ∧
    (key = keyOf 0 ∧ a.position = p ∨ key = keyOf 1 ∧ b.position = p ∧ a.position ≠ p) := by
  constructor
  · rintro ⟨hp, i, l, rfl, hl, rfl, hfirst⟩
    refine ⟨hp, ?_⟩
    rcases i with _ | _ | i
    · obtain rfl : a = l := Option.some.inj hl
      exact .inl ⟨rfl, rfl⟩
    · obtain rfl : b = l := Option.some.inj hl
      exact .inr ⟨rfl, rfl, hfirst 0 Nat.zero_lt_one a rfl⟩
    · -- all later entries are empty
      have hmem : l ∈ List.replicate (entryCount - 2) vacant := mem_of_getElem? (i := i) hl
      rw [(mem_replicate.1 hmem).2] at hp
      exact absurd rfl hp
  · rintro ⟨hp, ⟨rfl, rfl⟩ | ⟨rfl, rfl, hne⟩⟩
    · exact ⟨hp, 0, a, rfl, rfl, rfl, fun j hj => absurd hj (Nat.not_lt_zero j)⟩
    · refine ⟨hp, 1, b, rfl, rfl, rfl, fun j hj l' hl' => ?_⟩
      obtain rfl := Nat.lt_one_iff.1 hj
      obtain rfl : a = l' := Option.some.inj hl'
      exact hne

end TwoEntries

theorem target_sample_tiles : ∀ i < 2, ∀ mark ∈ ["", "_GAMEVERSION"],
    ∀ tail ∈ ["", "_kabuto", "_kuwagata"], ∀ e ∈ [("pre", ".malias"), ("raw", ".malias.png")],
      (sampleBare.target (Path.join e.1 ("Tileset" ++ upperHex 4 (keyOf i) ++ mark ++
        tail ++ e.2))).isOk := by
  decide +kernel

theorem exists_target_sample (first second : ByteArray) {path : String}
    (h : (sampleBare.target path).isOk) :
    ∃ key, (sampleWorkspace first second).target path = .ok key := by
  cases htarget : sampleBare.target path with
  | error fault =>
    rw [htarget] at h
    cases h
  | ok key => exact ⟨key, target_sample first second htarget⟩

theorem canSave_sample (first second : ByteArray) {i : Nat} (hi : i < 2) {mark tail : String}
    (hmark : mark ∈ ["", "_GAMEVERSION"]) (htail : tail ∈ ["", "_kabuto", "_kuwagata"]) :
    Dump.CanSave sampleFolders (sampleWorkspace first second)
      ("Tileset" ++ upperHex 4 (keyOf i) ++ mark ++ tail) :=
  ⟨exists_target_sample first second
      (target_sample_tiles i hi mark hmark tail htail ("pre", ".malias") (by simp)),
    exists_target_sample first second
      (target_sample_tiles i hi mark hmark tail htail ("raw", ".malias.png") (by simp))⟩

theorem room_sample (first second : ByteArray)
    (h : ∀ v key p, Introduces (entries v) key p → ∃ i < 2, key = keyOf i) :
    Room sampleFolders (sampleWorkspace first second) entries where
  lists := by
    have hlists : ∀ name ∈ ["meta_tileset_names.tbl", "meta_tileset_load_offsets.tbl",
        "meta_tileset_index.tbl"], (sampleBare.target (Path.join "res" name)).isOk := by
      decide +kernel
    exact fun name hname => exists_target_sample _ _ (hlists name hname)
  shared := exists_target_sample _ _ (by decide +kernel)
  own v := by
    cases v with
    | kabuto | kuwagata => exact exists_target_sample _ _ (by decide +kernel)
  tiles v key p hbrings mark hmark := by
    obtain ⟨i, hi, rfl⟩ := h v key p hbrings
    refine ⟨?_, fun u => ?_⟩
    · have htail : "" ∈ ["", "_kabuto", "_kuwagata"] := by decide
      have hsave := canSave_sample first second hi hmark htail
      rwa [String.append_empty] at hsave
    · rw [String.append_assoc]
      refine canSave_sample _ _ hi hmark ?_
      cases u with
      | kabuto | kuwagata => decide

theorem read_sample (first second : ByteArray) (v : Version) :
    (sampleWorkspace first second).read v.image = .ok (Dump.perVersion first second v) := by
  cases v with
  | kabuto => exact read_sample_kabuto _ _
  | kuwagata => exact read_sample_kuwagata _ _

section Pairs

variable {a b a' b' : Listing}

def pairs (a b a' b' : Listing) : Version → List Listing := Dump.perVersion [a, b] [a', b']

/-- The small workspace with images of the given entries. -/
def frontWorkspace (front : Version → List Listing) : Workspace :=
  sampleWorkspace (twoTiles (front .kabuto)) (twoTiles (front .kuwagata))

theorem read_frontWorkspace (front : Version → List Listing) (v : Version) :
    (frontWorkspace front).read v.image = .ok (twoTiles (front v)) := by
  cases v with
  | kabuto => exact read_sample_kabuto _ _
  | kuwagata => exact read_sample_kuwagata _ _

theorem wellFormed_pairs (hleads : Leads [a, b, a', b']) (v : Version) :
    WellFormed (twoTiles (pairs a b a' b' v)) (filled (pairs a b a' b' v)) := by
  have hfront : Leads (pairs a b a' b' v) := by
    intro l hl
    cases v with
    | kabuto => exact hleads l (mem_append_left [a', b'] hl)
    | kuwagata => exact hleads l (mem_append_right [a, b] hl)
  have hlength : (pairs a b a' b' v).length ≤ entryCount := by
    cases v with
    | kabuto | kuwagata => exact (by decide : 2 ≤ entryCount)
  exact ⟨readListings_twoTiles hfront hlength, fun l hl hempty =>
    ⟨_, 1, readAt_filled hfront hl hempty, by decide, Nat.zero_lt_one⟩⟩

theorem lt_two_of_introduces {v : Version} {key : Nat} {p : Int}
    (h : Introduces (filled (pairs a b a' b' v)) key p) : ∃ i < 2, key = keyOf i := by
  have hkey : key = keyOf 0 ∨ key = keyOf 1 := by
    cases v with
    | kabuto | kuwagata => exact (introduces_filled_iff.1 h).2.imp And.left And.left
  rcases hkey with rfl | rfl
  · exact ⟨0, by decide, rfl⟩
  · exact ⟨1, by decide, rfl⟩

theorem room_pairs (a b a' b' : Listing) : Room sampleFolders
    (frontWorkspace (pairs a b a' b')) fun v => filled (pairs a b a' b' v) :=
  room_sample _ _ fun _ _ _ => lt_two_of_introduces

end Pairs

/-- Each version brings one tileset, with a key that brings none in the other. -/
def crossed : Version → List Listing := pairs vacant (leading 0) (leading 0) vacant

theorem balanced_crossed : Balanced fun v => filled (crossed v) := by
  have hother : keyOf 0 ≠ keyOf 1 := by decide
  refine .inr fun v => ?_
  cases v with
  | kabuto =>
    refine ⟨keyOf 0, fun p hbrings => ?_, .kuwagata, 0,
      introduces_filled_iff.2 ⟨by decide, .inl ⟨rfl, by decide⟩⟩⟩
    obtain ⟨hp, ⟨-, rfl⟩ | ⟨hkey, -⟩⟩ := introduces_filled_iff.1 hbrings
    · exact hp rfl
    · exact hother hkey
  | kuwagata =>
    refine ⟨keyOf 1, fun p hbrings => ?_, .kabuto, 0,
      introduces_filled_iff.2 ⟨by decide, .inr ⟨rfl, by decide, by decide⟩⟩⟩
    obtain ⟨hp, ⟨hkey, -⟩ | ⟨-, rfl, -⟩⟩ := introduces_filled_iff.1 hbrings
    · exact hother hkey.symm
    · exact hp rfl

theorem dump_finishes_crossed :
    (frontWorkspace crossed).hasPath (namesPath sampleFolders) = false ∧
      (∀ v : Version, (frontWorkspace crossed).read v.image = .ok (twoTiles (crossed v))) ∧
      (∀ v, WellFormed (twoTiles (crossed v)) (filled (crossed v))) ∧
      Room sampleFolders (frontWorkspace crossed) (fun v => filled (crossed v)) ∧
      Balanced (fun v => filled (crossed v)) ∧
      ∃ w', (dump sampleFolders).on (frontWorkspace crossed) = (.ok (), w') := by
  have hleads : Leads [vacant, leading 0, leading 0, vacant] := by
    unfold Leads
    decide
  have hfresh : (frontWorkspace crossed).hasPath (namesPath sampleFolders) = false :=
    hasPath_sample _ _
  have himages := read_frontWorkspace crossed
  have hformed : ∀ v, WellFormed (twoTiles (crossed v)) (filled (crossed v)) :=
    wellFormed_pairs hleads
  have hroom : Room sampleFolders (frontWorkspace crossed) fun v => filled (crossed v) :=
    room_pairs _ _ _ _
  exact ⟨hfresh, himages, hformed, hroom, balanced_crossed,
    (dump_finishes_iff_balanced hfresh himages hformed hroom).1 balanced_crossed⟩

def displaced : Version → List Listing := pairs (leading 0) vacant (leading 19) vacant

theorem not_balanced_displaced : ¬Balanced fun v => filled (displaced v) := by
  rintro (hagree | hlacks)
  · have hbrings := hagree .kabuto .kuwagata (keyOf 0) 0
      (introduces_filled_iff.2 ⟨by decide, .inl ⟨rfl, by decide⟩⟩)
    exact absurd (introduces_filled_iff.1 hbrings).2 (by decide)
  · obtain ⟨key, hnone, u, p, hbrings⟩ := hlacks .kabuto
    cases u with
    | kabuto => exact hnone p hbrings
    | kuwagata =>
      obtain ⟨hp, ⟨rfl, -⟩ | ⟨-, rfl, -⟩⟩ := introduces_filled_iff.1 hbrings
      · exact hnone 0 (introduces_filled_iff.2 ⟨by decide, .inl ⟨rfl, by decide⟩⟩)
      · exact hp rfl

/-- A dump of well-formed images, one tileset of which has moved, fails. -/
theorem exists_unfinished_dump : ∃ (f : Folders) (w w' : Workspace)
    (images : Version → ByteArray) (entries : Version → List Listing),
    w.hasPath (namesPath f) = false ∧ (∀ v : Version, w.read v.image = .ok (images v)) ∧
      (∀ v, WellFormed (images v) (entries v)) ∧ Room f w entries ∧
      (dump f).on w = (.error (.plain .key), w') := by
  have hleads : Leads [leading 0, vacant, leading 19, vacant] := by
    unfold Leads
    decide
  have hfresh : (frontWorkspace displaced).hasPath (namesPath sampleFolders) = false :=
    hasPath_sample _ _
  have himages := read_frontWorkspace displaced
  have hformed : ∀ v, WellFormed (twoTiles (displaced v)) (filled (displaced v)) :=
    wellFormed_pairs hleads
  have hroom : Room sampleFolders (frontWorkspace displaced) fun v => filled (displaced v) :=
    room_pairs _ _ _ _
  obtain ⟨d, w₂, hready, hfolders, hdump⟩ := exists_ready hfresh himages hformed hroom
  obtain ⟨w', hon⟩ := hready.stops_write not_balanced_displaced w₂ hfolders
  exact ⟨sampleFolders, _, w', _, _, hfresh, himages, hformed, hroom, hdump.trans hon⟩

end Tileset

end Cartridge
