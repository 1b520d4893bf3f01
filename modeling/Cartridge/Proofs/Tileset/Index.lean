import Cartridge.Proofs.Tileset.Finished

/-!
# The list of names

In the list of names that other programs read, an entry without a name of its own is given the name
of the *last* entry's tileset instead of the tileset that it leads to.

* `exists_on_dump_sample`, `of_sample`: a dump of two images with one tileset, which is common to
  both versions.

Main result: `index_eq_table_iff`.
-/

namespace Cartridge.Tileset

variable {f : Folders} {w w' : Workspace}

/-! ### One tileset in both versions -/

section SampleRun

variable {first second : List UInt8} {t t₁ t₂ : Decoded} {key : Nat} {p : Int}

theorem introduces_sample_iff : Introduces sampleEntries key p ↔ key = keyOf 0 ∧ p = 0 := by
  have hposition : (leading 0).position = 0 := by decide
  have hfilled : sampleEntries = filled [leading 0, leading 0] := rfl
  rw [hfilled, introduces_filled_iff, hposition]
  constructor
  · rintro ⟨-, ⟨hkey, rfl⟩ | ⟨-, rfl, hne⟩⟩
    · exact ⟨hkey, rfl⟩
    · exact absurd rfl hne
  · rintro ⟨rfl, rfl⟩
    exact ⟨by decide, .inl ⟨rfl, rfl⟩⟩

theorem wellFormed_sample (hfirst : first.length ≤ addressTable)
    (ht : readAt (imageOf first sampleEntries) 0 = .ok t) (hsize : t.data.toList.length = 16) :
    WellFormed (imageOf first sampleEntries) sampleEntries where
  listed := readListings_sample hfirst
  tiles l hl hempty := by
    rw [(position_sampleEntries hl).resolve_right hempty]
    exact ⟨t, 1, ht, hsize, Nat.zero_lt_one⟩

theorem exists_on_dump_sample (hfirst : first.length ≤ addressTable)
    (hsecond : second.length ≤ addressTable)
    (ht₁ : readAt (imageOf first sampleEntries) 0 = .ok t₁)
    (ht₂ : readAt (imageOf second sampleEntries) 0 = .ok t₂) (hdata : t₁.data = t₂.data)
    (hsize : t₁.data.toList.length = 16) :
    ∃ w', (dump sampleFolders).on (sampleWorkspace (imageOf first sampleEntries)
      (imageOf second sampleEntries)) = (.ok (), w') := by
  have hformed : ∀ v, WellFormed (Dump.perVersion (imageOf first sampleEntries)
      (imageOf second sampleEntries) v) sampleEntries := by
    intro v
    cases v with
    | kabuto => exact wellFormed_sample hfirst ht₁ hsize
    | kuwagata => exact wellFormed_sample hsecond ht₂ (hdata ▸ hsize)
  have hroom : Room sampleFolders (sampleWorkspace (imageOf first sampleEntries)
      (imageOf second sampleEntries)) fun _ => sampleEntries :=
    room_sample _ _ fun v key p hbrings => ⟨0, by decide, (introduces_sample_iff.1 hbrings).1⟩
  obtain ⟨d, w₂, hready, hfolders, hdump⟩ :=
    exists_ready (hasPath_sample _ _) (read_sample _ _) hformed hroom
  obtain ⟨⟨⟩, w', hon, -⟩ := hready.ends_write (.inl fun _ _ _ _ => id) w₂ hfolders
  exact ⟨w', hdump.trans hon⟩

theorem find?_found_sample {s : Survey} {image : ByteArray} (h : s.Sound image sampleEntries)
    (ht : readAt image 0 = .ok t) : s.found.find? (keyOf 0) = some ⟨0, t⟩ := by
  obtain ⟨⟨position, tiles⟩, hfound, rfl⟩ :=
    h.find?_found_iff.2 (introduces_sample_iff.2 ⟨rfl, rfl⟩)
  obtain ⟨-, -, hread⟩ := h.found _ _ hfound
  obtain rfl : tiles = t := Except.ok.inj (hread.symm.trans ht)
  exact hfound

theorem Classes.eq_common {c : Classes} (htiles : c.tiles = []) (hapart : c.apart = []) :
    c = { common := c.common } := by
  obtain ⟨common, tiles, position, both, missing⟩ := c
  rw [apart, List.append_eq_nil_iff, List.append_eq_nil_iff] at hapart
  obtain ⟨⟨rfl, rfl⟩, rfl⟩ := hapart
  obtain rfl : tiles = [] := htiles
  rfl

theorem of_sample {d : Dump} (hd : d.Of sampleFolders (sampleWorkspace
      (imageOf first sampleEntries) (imageOf second sampleEntries)))
    (hfirst : first.length ≤ addressTable) (hsecond : second.length ≤ addressTable)
    (ht₁ : readAt (imageOf first sampleEntries) 0 = .ok t₁)
    (ht₂ : readAt (imageOf second sampleEntries) 0 = .ok t₂) (hdata : t₁.data = t₂.data) :
    d.first.found.find? (keyOf 0) = some ⟨0, t₁⟩ ∧ d.second.found.find? (keyOf 0) = some ⟨0, t₂⟩ ∧
      (∃ keys, d.comparison.classes = { common := keys } ∧ ∀ key, key ∈ keys ↔ key = keyOf 0) ∧
      ∀ key : Nat, d.names.find? key = if key = addressTableEnd then some stopName.2
        else if key = keyOf 0 then some "Tileset3995" else none := by
  obtain ⟨images, entries, himages, hentries, hs⟩ := hd.exists_sound
  have himages₁ := Except.ok.inj ((himages .kabuto).symm.trans (read_sample_kabuto _ _))
  have himages₂ := Except.ok.inj ((himages .kuwagata).symm.trans (read_sample_kuwagata _ _))
  have hsample : ∀ v, entries v = sampleEntries := by
    intro v
    refine Except.ok.inj ((hentries v).symm.trans ?_)
    cases v with
    | kabuto => rw [himages₁, readListings_sample hfirst]
    | kuwagata => rw [himages₂, readListings_sample hsecond]
  have hfound₁ : d.first.found.find? (keyOf 0) = some ⟨0, t₁⟩ :=
    find?_found_sample (hsample .kabuto ▸ hs.survey .kabuto) (himages₁ ▸ ht₁)
  have hfound₂ : d.second.found.find? (keyOf 0) = some ⟨0, t₂⟩ :=
    find?_found_sample (hsample .kuwagata ▸ hs.survey .kuwagata) (himages₂ ▸ ht₂)
  have hkeys : ∀ key, key ∈ d.comparison.classes.keys ↔ key = keyOf 0 := by
    intro key
    rw [hs.mem_keys_iff]
    constructor
    · rintro ⟨v, t, ht⟩
      have hbrings := (hs.survey v).find?_found_iff.1 ⟨t, ht, rfl⟩
      exact (introduces_sample_iff.1 (hsample v ▸ hbrings)).1
    · rintro rfl
      exact ⟨.kabuto, _, hfound₁⟩
  -- neither the positions nor the tiles differ
  have hapart : d.comparison.classes.apart = [] := by
    refine hs.apart_eq_nil_iff.2 fun u v key p hbrings => ?_
    rwa [hsample v, ← hsample u]
  have htiles : d.comparison.classes.tiles = [] := by
    refine List.eq_nil_iff_forall_not_mem.2 fun key hkey => ?_
    obtain ⟨a, b, ha, hb, hdiffer⟩ := hs.sorted.tiles key hkey
    obtain rfl := (hkeys key).1 (Classes.mem_keys_of_own (.inl hkey))
    rw [hfound₁, Option.some.injEq] at ha
    rw [hfound₂, Option.some.injEq] at hb
    subst ha hb
    simp [hdata] at hdiffer
  obtain ⟨keys, hclasses⟩ : ∃ keys, d.comparison.classes = { common := keys } :=
    ⟨_, Classes.eq_common htiles hapart⟩
  have hcommon : ({ common := keys } : Classes).keys = keys := by simp [Classes.keys]
  have hend := hs.notMem_addressTableEnd
  rw [hclasses, hcommon] at hkeys
  rw [hclasses] at hend
  refine ⟨hfound₁, hfound₂, ⟨keys, hclasses, hkeys⟩, fun key => ?_⟩
  rw [hd.names_of_fresh (hasPath_sample _ _), hclasses, find?_freshNames hend, hcommon]
  simp only [hkeys]
  by_cases hkey : key = keyOf 0
  · subst hkey
    have hname : freshName {} (keyOf 0) = "Tileset3995" := by decide +kernel
    have hsame : freshName { common := keys } (keyOf 0) = freshName {} (keyOf 0) := rfl
    rw [hsame, hname]
  · rw [if_neg hkey, if_neg hkey]

end SampleRun

/-! ### The list and the tables -/

theorem keyed_inj {ls ls' : List Listing} (h : keyed ls 0 = keyed ls' 0) : ls = ls' := by
  have hall : ∀ ls, (keyed ls 0).map Prod.snd = ls := fun ls => by
    rw [keyed, List.map_map]
    exact List.zipIdx_map_fst 0 ls
  rw [← hall ls, h, hall]

theorem exists_names (h : (dump f).on w = (.ok (), w')) :
    ∃ (d : Dump) (image : ByteArray) (ls : List Listing) (table index : List String),
      d.Of f w ∧ w.read Version.kabuto.image = .ok image ∧ readListings image = .ok ls ∧
      d.first.Sound image ls ∧ Listed f w' ls table index ∧
      table.length = entryCount ∧ index.length = entryCount ∧
      ∀ i < entryCount,
        table[i]? = (d.names.find? (keyOf i)).or (d.sharedName i) ∧
        index[i]? = (d.names.find? (keyOf i)).or (d.sharedName (entryCount - 1)) := by
  obtain ⟨d, table, lines, written, alone, hd, houtcome⟩ := Dump.exists_outcome h
  obtain ⟨image, himage, hsurvey⟩ := hd.survey .kabuto
  obtain ⟨ls, hls, hsound⟩ := sound_read hsurvey
  obtain ⟨ls', index, hentries, hlisted, hcount, hindex⟩ := houtcome.listed
  obtain rfl := keyed_inj (hsound.listings.symm.trans hentries)
  exact ⟨d, image, ls, table, index, hd, himage, hls, hsound, hd.folders ▸ hlisted,
    houtcome.length, hcount, fun i hi => ⟨houtcome.table i hi, hindex i hi⟩⟩

/-- **The listings of the tilesets.**  The tables name every entry after the tileset that it leads
to, while the list of names gives an entry without a name of its own that of the last entry's
tileset; so an entry is named alike in both exactly if it has a name of its own or that of its
tileset is that of the last entry's. -/
theorem index_eq_table_iff (h : (dump f).on w = (.ok (), w')) :
    ∃ (d : Dump) (image : ByteArray) (ls : List Listing) (table index : List String),
      d.Of f w ∧ w.read Version.kabuto.image = .ok image ∧ readListings image = .ok ls ∧
      Listed f w' ls table index ∧ table.length = entryCount ∧ index.length = entryCount ∧
      ∀ i < entryCount,
        table[i]? = (d.names.find? (keyOf i)).or (d.sharedName i) ∧
        index[i]? = (d.names.find? (keyOf i)).or (d.sharedName (entryCount - 1)) ∧
        (index[i]? = table[i]? ↔
          (d.names.find? (keyOf i)).isSome ∨ d.sharedName i = d.sharedName (entryCount - 1)) := by
  obtain ⟨d, image, ls, table, index, hd, himage, hls, -, hlisted, htable, hindex, hnames⟩ :=
    exists_names h
  refine ⟨d, image, ls, table, index, hd, himage, hls, hlisted, htable, hindex, fun i hi => ?_⟩
  obtain ⟨hname, hname'⟩ := hnames i hi
  rw [hname, hname']
  cases d.names.find? (keyOf i) with
  | some own => simp
  | none => simp [eq_comm]

/-- An image with one tileset that two entries lead to. -/
def repeatedImage : ByteArray := imageOf plainTile sampleEntries

theorem exists_on_dump_repeated : ∃ w', (dump sampleFolders).on
    (sampleWorkspace repeatedImage repeatedImage) = (.ok (), w') :=
  exists_on_dump_sample (by decide) (by decide) readAt_plainTile readAt_plainTile rfl (by decide)

theorem index_eq_table_iff_repeated :
    ∃ w', (dump sampleFolders).on (sampleWorkspace repeatedImage repeatedImage) = (.ok (), w') ∧
      ∃ (d : Dump) (image : ByteArray) (ls : List Listing) (table index : List String),
        d.Of sampleFolders (sampleWorkspace repeatedImage repeatedImage) ∧
        (sampleWorkspace repeatedImage repeatedImage).read Version.kabuto.image = .ok image ∧
        readListings image = .ok ls ∧ Listed sampleFolders w' ls table index ∧
        table.length = entryCount ∧ index.length = entryCount ∧
        ∀ i < entryCount,
          table[i]? = (d.names.find? (keyOf i)).or (d.sharedName i) ∧
          index[i]? = (d.names.find? (keyOf i)).or (d.sharedName (entryCount - 1)) ∧
          (index[i]? = table[i]? ↔ (d.names.find? (keyOf i)).isSome ∨
            d.sharedName i = d.sharedName (entryCount - 1)) := by
  obtain ⟨w', hon⟩ := exists_on_dump_repeated
  exact ⟨w', hon, index_eq_table_iff hon⟩

/-- The listings disagree: the second entry leads to the first one's tileset, but the list names it
as the empty entry that comes last. -/
theorem exists_index_ne_table :
    ∃ w' ls table index,
      (dump sampleFolders).on (sampleWorkspace repeatedImage repeatedImage) = (.ok (), w') ∧
      readListings repeatedImage = .ok ls ∧ Listed sampleFolders w' ls table index ∧
      table[1]? = some "Tileset3995" ∧ index[1]? = some "TilesetSourceAddressTableEnd" := by
  obtain ⟨w', hon⟩ := exists_on_dump_repeated
  obtain ⟨d, image, ls, table, index, hd, himage, hls, hsound, hlisted, -, -, hnames⟩ :=
    exists_names hon
  rw [read_sample_kabuto, Except.ok.injEq] at himage
  subst himage
  obtain ⟨-, -, -, hnamed⟩ := of_sample hd (by decide) (by decide) readAt_plainTile
    readAt_plainTile rfl
  obtain rfl := Except.ok.inj ((readListings_sample (by decide)).symm.trans hls)
  obtain ⟨htable, hindex⟩ := hnames 1 (by decide)
  have hown : d.names.find? (keyOf 1) = none := by
    rw [hnamed]
    rfl
  have hshared : d.sharedName 1 = some "Tileset3995" := by
    have howner : d.first.owner? (keyOf 1) = some (keyOf 0) := hsound.owner?_eq (i := 1) rfl
    rw [Dump.sharedName, howner, Option.bind_some, hnamed]
    rfl
  have hlast : d.sharedName (entryCount - 1) = some "TilesetSourceAddressTableEnd" := by
    have hl : sampleEntries[511]? = some ⟨0, addressTableEnd, 0, 0⟩ := by
      rw [sampleEntries, List.getElem?_append_right (by decide)]
      exact List.getElem?_replicate_of_lt (by decide)
    have hempty : (⟨0, addressTableEnd, 0, 0⟩ : Listing).position = emptyPosition := rfl
    have howner : d.first.owner? (keyOf 511) = some addressTableEnd := by
      rw [hsound.owner?_eq hl, ownerAmong, if_pos hempty]
    change (d.first.owner? (keyOf 511)).bind _ = _
    rw [howner, Option.bind_some, hnamed]
    rfl
  refine ⟨w', sampleEntries, table, index, hon, hls, hlisted, ?_, ?_⟩
  · rw [htable, hown, hshared]
    rfl
  · rw [hindex, hown, hlast]
    rfl

end Cartridge.Tileset
