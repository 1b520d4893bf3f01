import Cartridge.Proofs.Bytes
import Cartridge.Proofs.Table
import Cartridge.Tileset.Survey

/-!
# What a survey holds

Reading the tables of an image entry by entry keeps one invariant, `Survey.Sound`: the entries stand
in order under their keys, every position that an entry leads to has an owner, and a key is found
exactly if it owns a position, with the tileset that can be read there.

* `sound_read`: so it is at the end of the reading.
-/

open List

namespace Cartridge.Tileset

open Table (find?_insert_of_ne find?_insert_self)

variable {image : ByteArray} {s s' : Survey} {done ls : List Listing} {l : Listing}
  {i j k o n : Nat} {f : Found} {p : Int}

/-! ### Keys -/

theorem keyOf_inj : keyOf i = keyOf j ↔ i = j := by
  unfold keyOf
  omega

theorem keyOf_ne_addressTableEnd (h : i < entryCount) : keyOf i ≠ addressTableEnd := by
  have hcount : entryCount = 512 := rfl
  unfold keyOf addressTable addressTableEnd
  omega

def keyed (ls : List Listing) (n : Nat) : List (Nat × Listing) :=
  (ls.zipIdx n).map fun e => (keyOf e.2, e.1)

theorem keyed_cons (l : Listing) (ls : List Listing) (n : Nat) :
    keyed (l :: ls) n = (keyOf n, l) :: keyed ls (n + 1) := by
  rfl

theorem keyed_append_singleton (ls : List Listing) (l : Listing) :
    keyed (ls ++ [l]) 0 = keyed ls 0 ++ [(keyOf ls.length, l)] := by
  rw [keyed, zipIdx_append, map_append, Nat.zero_add]
  rfl

theorem lookup_keyed (ls : List Listing) (n i : Nat) :
    (keyed ls n).lookup (keyOf (n + i)) = ls[i]? := by
  induction ls generalizing n i with
  | nil => rfl
  | cons l ls ih =>
    rw [keyed_cons, lookup_cons]
    cases i with
    | zero => simp
    | succ i =>
      have hne : (keyOf (n + (i + 1)) == keyOf n) = false := by
        rw [beq_eq_false_iff_ne, Ne, keyOf_inj]
        omega
      rw [hne, getElem?_cons_succ, ← ih (n + 1) i, Nat.add_assoc n 1 i, Nat.add_comm 1 i]

theorem exists_of_mem_keyed {e : Nat × Listing} (h : e ∈ keyed ls n) :
    ∃ i < ls.length, e.1 = keyOf (n + i) ∧ ls[i]? = some e.2 := by
  obtain ⟨⟨l, m⟩, hmem, rfl⟩ := mem_map.1 h
  obtain ⟨hle, hlt, hl⟩ := mem_zipIdx hmem
  refine ⟨m - n, by omega, ?_, ?_⟩
  · rw [Nat.add_sub_cancel' hle]
  · rw [getElem?_eq_getElem (by omega), hl]

/-! ### The invariant -/

def ownerAmong (ls : List Listing) (p : Int) : Option Nat :=
  if p = emptyPosition then some addressTableEnd
  else (ls.findIdx? fun l => l.position == p).map keyOf

theorem ownerAmong_append_singleton (ls : List Listing) (l : Listing) (p : Int) :
    ownerAmong (ls ++ [l]) p =
      (ownerAmong ls p).or (if l.position = p then some (keyOf ls.length) else none) := by
  unfold ownerAmong
  by_cases hempty : p = emptyPosition
  · rw [if_pos hempty, if_pos hempty, Option.some_or]
  · rw [if_neg hempty, if_neg hempty]
    by_cases hl : l.position = p
    · simp [findIdx?_cons, hl]
    · simp [findIdx?_cons, hl]

theorem exists_of_ownerAmong (h : ownerAmong ls p = some o) (hp : p ≠ emptyPosition) :
    ∃ i l, o = keyOf i ∧ ls[i]? = some l ∧ l.position = p := by
  rw [ownerAmong, if_neg hp, Option.map_eq_some_iff] at h
  obtain ⟨i, hi, rfl⟩ := h
  obtain ⟨hlt, hposition, -⟩ := findIdx?_eq_some_iff_getElem.1 hi
  exact ⟨i, ls[i], rfl, getElem?_eq_getElem hlt, eq_of_beq hposition⟩

theorem exists_ownerAmong (hl : l ∈ ls) : ∃ o, ownerAmong ls l.position = some o := by
  unfold ownerAmong
  split
  · exact ⟨_, rfl⟩
  · cases hi : ls.findIdx? fun l' => l'.position == l.position with
    | some i => exact ⟨keyOf i, rfl⟩
    | none => exact absurd (findIdx?_eq_none_iff.1 hi l hl) (by simp)

/-- What a survey holds after the entries `done` were added. -/
structure Survey.Sound (image : ByteArray) (done : List Listing) (s : Survey) : Prop where
  listings : s.listings.entries = keyed done 0
  /-- A position belongs to the first entry that leads there. -/
  owners : ∀ p, s.owners.find? p = ownerAmong done p
  /-- The owner of a position brought the tileset there. -/
  owner : ∀ p o, s.owners.find? p = some o → p ≠ emptyPosition →
    ∃ f, s.found.find? o = some f ∧ f.position = p
  /-- A key that was found owns a position and brought what is read there. -/
  found : ∀ k f, s.found.find? k = some f → s.owners.find? f.position = some k ∧
    f.position ≠ emptyPosition ∧ readAt image f.position = .ok f.tiles
  keys : s.found.keys.Nodup

namespace Survey.Sound

theorem start (image : ByteArray) : Sound image [] {} where
  listings := rfl
  owners p := by
    by_cases hp : p = emptyPosition
    · rw [hp]
      exact find?_insert_self ..
    · rw [ownerAmong, if_neg hp]
      exact find?_insert_of_ne _ hp _
  owner p o h hp := by
    have hempty : ({} : Survey).owners.find? p = none := find?_insert_of_ne _ hp _
    rw [hempty] at h
    cases h
  found := nofun
  keys := nodup_nil

section

variable (h : Sound image done s)

include h

theorem exists_listing (hf : s.found.find? k = some f) :
    ∃ i l, k = keyOf i ∧ done[i]? = some l ∧ l.position = f.position := by
  obtain ⟨howner, hempty, -⟩ := h.found k f hf
  rw [h.owners] at howner
  exact exists_of_ownerAmong howner hempty

theorem ne_of_find? (hf : s.found.find? k = some f) : k ≠ keyOf done.length := by
  obtain ⟨i, l, rfl, hl, -⟩ := h.exists_listing hf
  have hi := (List.getElem?_eq_some_iff.1 hl).1
  rw [Ne, keyOf_inj]
  omega

theorem notMem_keys : keyOf done.length ∉ s.found.keys := by
  intro hmem
  obtain ⟨f, hf⟩ := Table.mem_keys_iff.1 hmem
  exact h.ne_of_find? hf rfl

theorem listings_insert (l : Listing) :
    (s.listings.insert (keyOf done.length) l).entries = keyed (done ++ [l]) 0 := by
  rw [keyed_append_singleton, Table.insert, Table.map_fst_insertEntry, h.listings]
  intro hmem
  obtain ⟨e, he, hkey⟩ := mem_map.1 hmem
  rw [h.listings] at he
  obtain ⟨i, hi, hfst, -⟩ := exists_of_mem_keyed he
  rw [hkey, keyOf_inj] at hfst
  omega

theorem add_known (ho : s.owners.find? l.position = some o) :
    Sound image (done ++ [l]) { s with listings := s.listings.insert (keyOf done.length) l } where
  listings := h.listings_insert l
  owners p := by
    rw [ownerAmong_append_singleton, ← h.owners]
    by_cases hp : l.position = p
    · rw [← hp, ho, Option.some_or]
    · rw [if_neg hp, Option.or_none]
  owner := h.owner
  found := h.found
  keys := h.keys

theorem add_new (hnew : s.owners.find? l.position = none) {tiles : Decoded}
    (hread : readAt image l.position = .ok tiles) :
    Sound image (done ++ [l])
      { listings := s.listings.insert (keyOf done.length) l
        owners := s.owners.insert l.position (keyOf done.length)
        found := s.found.insert (keyOf done.length) ⟨l.position, tiles⟩ } := by
  have hplace : ∀ p o, s.owners.find? p = some o → p ≠ l.position := by
    rintro p o ho rfl
    rw [hnew] at ho
    cases ho
  refine ⟨h.listings_insert l, ?_, ?_, ?_, ?_⟩
  · intro p
    rw [ownerAmong_append_singleton, ← h.owners]
    by_cases hp : l.position = p
    · subst hp
      rw [hnew, if_pos rfl]
      exact find?_insert_self ..
    · rw [if_neg hp, Option.or_none]
      exact find?_insert_of_ne _ (Ne.symm hp) _
  · intro p o ho hp
    by_cases hsame : p = l.position
    · subst hsame
      rw [find?_insert_self, Option.some.injEq] at ho
      subst ho
      exact ⟨_, find?_insert_self .., rfl⟩
    · rw [find?_insert_of_ne _ hsame] at ho
      obtain ⟨f, hf, hposition⟩ := h.owner p o ho hp
      exact ⟨f, (find?_insert_of_ne _ (h.ne_of_find? hf) _).trans hf, hposition⟩
  · intro k f hf
    by_cases hsame : k = keyOf done.length
    · subst hsame
      rw [find?_insert_self, Option.some.injEq] at hf
      subst hf
      refine ⟨find?_insert_self .., (hplace _ addressTableEnd ?_).symm, hread⟩
      rw [h.owners, ownerAmong, if_pos rfl]
    · rw [find?_insert_of_ne _ hsame] at hf
      obtain ⟨howner, hempty, hread⟩ := h.found k f hf
      exact ⟨(find?_insert_of_ne _ (hplace _ _ howner) _).trans howner, hempty, hread⟩
  · rw [Table.keys_insert_of_notMem h.notMem_keys]
    exact List.Nodup.append h.keys (nodup_singleton _) (disjoint_singleton.2 h.notMem_keys)

/-- **One entry keeps the invariant.** -/
theorem add (hadd : s.add image (l, done.length) = .ok s') : Sound image (done ++ [l]) s' := by
  rw [Survey.add] at hadd
  cases ho : s.owners.find? l.position with
  | some o =>
    have hcontains : s.owners.contains l.position = true := by rw [Table.contains, ho]; rfl
    simp only [hcontains, if_true, pure_ok_iff] at hadd
    subst hadd
    exact h.add_known ho
  | none =>
    have hcontains : s.owners.contains l.position = false := by rw [Table.contains, ho]; rfl
    simp only [hcontains, Bool.false_eq_true, if_false, bind_ok_iff, pure_ok_iff] at hadd
    obtain ⟨tiles, hread, rfl⟩ := hadd
    exact h.add_new ho hread

theorem foldlM_add (hrun : (ls.zipIdx done.length).foldlM (Survey.add image) s = .ok s') :
    Sound image (done ++ ls) s' := by
  induction ls generalizing done s with
  | nil =>
    cases hrun
    rwa [append_nil]
  | cons l ls ih =>
    rw [zipIdx_cons, foldlM_cons, bind_ok_iff] at hrun
    obtain ⟨v, hadd, hrest⟩ := hrun
    have hlength : (done ++ [l]).length = done.length + 1 := length_append
    rw [← hlength] at hrest
    rw [← singleton_append, ← append_assoc]
    exact ih (h.add hadd) hrest

end

end Survey.Sound

theorem length_readInfo {pos : Nat} {info : List (Nat × Nat × Nat)}
    (h : readInfo image pos n = .ok info) : info.length = n := by
  induction n generalizing pos info with
  | zero =>
    cases h
    rfl
  | succ n ih =>
    simp only [readInfo, bind_ok_iff, pure_ok_iff] at h
    obtain ⟨_, -, _, -, _, -, rest, hrest, rfl⟩ := h
    rw [length_cons, ih hrest]

theorem length_readListings (h : readListings image = .ok ls) : ls.length = entryCount := by
  simp only [readListings, bind_ok_iff, pure_ok_iff] at h
  obtain ⟨pointers, hpointers, info, hinfo, rfl⟩ := h
  have hlength := (mapM_ok_iff.1 hpointers).length_eq
  rw [length_range] at hlength
  rw [length_map, length_zip, ← hlength, length_readInfo hinfo, Nat.min_self]

theorem sound_read (h : Survey.read image = .ok s) :
    ∃ ls, readListings image = .ok ls ∧ s.Sound image ls := by
  rw [Survey.read, bind_ok_iff] at h
  obtain ⟨ls, hls, hrun⟩ := h
  exact ⟨ls, hls, (Survey.Sound.start image).foldlM_add hrun⟩

/-! ### Owners and stored tilesets -/

/-- The key that the tileset of an entry belongs to. -/
def Survey.owner? (s : Survey) (key : Nat) : Option Nat := do
  let l ← s.listings.find? key
  s.owners.find? l.position

def Survey.stored? (s : Survey) (key : Nat) : Option ByteArray := do
  let o ← s.owner? key
  let f ← s.found.find? o
  return f.tiles.stored

namespace Survey.Sound

variable {bytes : ByteArray}

section

variable (h : Sound image ls s)

include h

theorem find?_listings (i : Nat) : s.listings.find? (keyOf i) = ls[i]? := by
  have hlookup := lookup_keyed ls 0 i
  rwa [Nat.zero_add, ← h.listings] at hlookup

theorem exists_of_find?_listings (hl : s.listings.find? k = some l) :
    ∃ i, k = keyOf i ∧ ls[i]? = some l := by
  have hmem := Table.mem_of_find? hl
  rw [h.listings] at hmem
  obtain ⟨i, -, hk, hl⟩ := exists_of_mem_keyed hmem
  rw [Nat.zero_add] at hk
  exact ⟨i, hk, hl⟩

theorem owner?_eq (hl : ls[i]? = some l) : s.owner? (keyOf i) = ownerAmong ls l.position := by
  rw [Survey.owner?, h.find?_listings, hl, ← h.owners]
  rfl

theorem owner?_of_found (hf : s.found.find? k = some f) : s.owner? k = some k := by
  obtain ⟨i, l, rfl, hl, hposition⟩ := h.exists_listing hf
  rw [h.owner?_eq hl, hposition, ← h.owners]
  exact (h.found _ f hf).1

theorem find?_end (hlength : ls.length = entryCount) : s.found.find? addressTableEnd = none := by
  cases hf : s.found.find? addressTableEnd with
  | none => rfl
  | some f =>
    obtain ⟨i, l, hkey, hl, -⟩ := h.exists_listing hf
    have hi := (List.getElem?_eq_some_iff.1 hl).1
    exact absurd hkey.symm (keyOf_ne_addressTableEnd (hlength ▸ hi))

theorem exists_owner (hl : ls[i]? = some l) :
    (l.position = emptyPosition ∧ s.owner? (keyOf i) = some addressTableEnd) ∨
      ∃ o f, l.position ≠ emptyPosition ∧ s.owner? (keyOf i) = some o ∧
        s.found.find? o = some f ∧ f.position = l.position := by
  rw [h.owner?_eq hl]
  by_cases hempty : l.position = emptyPosition
  · rw [ownerAmong, if_pos hempty]
    exact .inl ⟨hempty, rfl⟩
  · obtain ⟨o, ho⟩ := exists_ownerAmong (mem_of_getElem? hl)
    obtain ⟨f, hf, hposition⟩ := h.owner _ o ((h.owners _).trans ho) hempty
    exact .inr ⟨o, f, hempty, ho, hf, hposition⟩

end

theorem stored?_of_owner (ho : s.owner? k = some o) (hf : s.found.find? o = some f) :
    s.stored? k = some f.tiles.stored := by
  rw [Survey.stored?, ho, Option.bind_eq_bind, Option.bind_some, hf]
  rfl

theorem exists_of_stored? (h : s.stored? k = some bytes) :
    ∃ o f, s.owner? k = some o ∧ s.found.find? o = some f ∧ f.tiles.stored = bytes := by
  simp only [Survey.stored?, Option.bind_eq_bind, Option.bind_eq_some_iff, Option.pure_def,
    Option.some.injEq] at h
  obtain ⟨o, ho, f, hf, hbytes⟩ := h
  exact ⟨o, f, ho, hf, hbytes⟩

theorem stored?_of_found (h : Sound image ls s) (hf : s.found.find? k = some f) :
    s.stored? k = some f.tiles.stored :=
  stored?_of_owner (h.owner?_of_found hf) hf

theorem exists_keyOf_of_stored? (h : Sound image ls s) (hstored : s.stored? k = some bytes) :
    ∃ i l, k = keyOf i ∧ ls[i]? = some l := by
  obtain ⟨o, -, ho, -⟩ := exists_of_stored? hstored
  rw [Survey.owner?, Option.bind_eq_bind, Option.bind_eq_some_iff] at ho
  obtain ⟨l, hl, -⟩ := ho
  obtain ⟨i, hk, hentry⟩ := h.exists_of_find?_listings hl
  exact ⟨i, l, hk, hentry⟩

/-- **What an entry's tileset is stored as**: the bytes that its tiles are read from. -/
theorem stored?_eq_some_iff (h : Sound image ls s) (hlength : ls.length = entryCount)
    (hl : ls[i]? = some l) : s.stored? (keyOf i) = some bytes ↔
      l.position ≠ emptyPosition ∧
        ∃ tiles, readAt image l.position = .ok tiles ∧ tiles.stored = bytes := by
  rcases h.exists_owner hl with ⟨hempty, ho⟩ | ⟨o, f, hempty, ho, hf, hposition⟩
  · have hnone : s.stored? (keyOf i) = none := by
      rw [Survey.stored?, ho, Option.bind_eq_bind, Option.bind_some, h.find?_end hlength]
      rfl
    rw [hnone]
    simp [hempty]
  · obtain ⟨-, -, hread⟩ := h.found o f hf
    rw [hposition] at hread
    rw [stored?_of_owner ho hf, hread]
    simp [hempty]

end Survey.Sound

end Cartridge.Tileset
