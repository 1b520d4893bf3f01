import Cartridge.Proofs.Tileset.Sources

/-!
# Classes as a partition

Two versions are compared by sorting their keys and then going through the missing ones, first for
the one version and then for the other, to note whose tileset each of them shares.

Main result: `Comparison.partition_throughout`.
-/

open List

namespace Cartridge.Tileset

open Classes

variable {image : ByteArray} {ls front : List Listing} {s : Survey} {key o : Nat} {p : Int}
  {v : Version} {P : Version → Prop} {done : List Nat} {l : Listing}

/-! ### Entries that bring a tileset -/

/-- The entry with the key `key` is the first to lead to the position `p`, which is not that of
empty entries. -/
def Introduces (ls : List Listing) (key : Nat) (p : Int) : Prop :=
  p ≠ emptyPosition ∧ ∃ i l, key = keyOf i ∧ ls[i]? = some l ∧ l.position = p ∧
    ∀ j < i, ∀ l', ls[j]? = some l' → l'.position ≠ p

theorem ownerAmong_eq_some_iff (hp : p ≠ emptyPosition) :
    ownerAmong ls p = some key ↔ Introduces ls key p := by
  rw [ownerAmong, if_neg hp, Option.map_eq_some_iff]
  constructor
  · rintro ⟨i, hi, rfl⟩
    obtain ⟨hlt, hposition, hfirst⟩ := findIdx?_eq_some_iff_getElem.1 hi
    refine ⟨hp, i, ls[i], rfl, getElem?_eq_getElem hlt, eq_of_beq hposition, ?_⟩
    intro j hj l' hl' heq
    obtain ⟨hlt', rfl⟩ := List.getElem?_eq_some_iff.1 hl'
    exact hfirst j hj (beq_iff_eq.2 heq)
  · rintro ⟨-, i, l, rfl, hl, hposition, hfirst⟩
    obtain ⟨hlt, rfl⟩ := List.getElem?_eq_some_iff.1 hl
    refine ⟨i, findIdx?_eq_some_iff_getElem.2 ⟨hlt, beq_iff_eq.2 hposition, ?_⟩, rfl⟩
    intro j hj heq
    exact hfirst j hj _ (getElem?_eq_getElem (hj.trans hlt)) (eq_of_beq heq)

/-- **A survey finds the tilesets that entries bring.** -/
theorem Survey.Sound.find?_found_iff (h : s.Sound image ls) :
    (∃ f, s.found.find? key = some f ∧ f.position = p) ↔ Introduces ls key p := by
  constructor
  · rintro ⟨f, hf, rfl⟩
    obtain ⟨howner, hempty, -⟩ := h.found key f hf
    rw [h.owners] at howner
    exact (ownerAmong_eq_some_iff hempty).1 howner
  · intro hbrings
    have howner := (ownerAmong_eq_some_iff hbrings.1).2 hbrings
    rw [← h.owners] at howner
    exact h.owner p key howner hbrings.1

theorem Survey.Sound.isSome_found_iff (h : s.Sound image ls) :
    (s.found.find? key).isSome ↔ ∃ p, Introduces ls key p := by
  rw [Option.isSome_iff_exists]
  constructor
  · rintro ⟨f, hf⟩
    exact ⟨f.position, h.find?_found_iff.1 ⟨f, hf, rfl⟩⟩
  · rintro ⟨p, hbrings⟩
    obtain ⟨f, hf, -⟩ := h.find?_found_iff.2 hbrings
    exact ⟨f, hf⟩

/-! ### Going through the missing keys -/

def Survey.shared? (s : Survey) (key : Nat) : Option (Nat × Nat) :=
  if s.found.contains key then none else (s.owner? key).map fun owner => (key, owner)

theorem sharedKeys_eq_filterMap (s : Survey) (missing : List Nat) :
    sharedKeys s missing = missing.filterMap s.shared? := by
  refine filterMap_congr fun key _ => ?_
  rw [Survey.shared?, Survey.owner?]
  split
  · rfl
  · cases s.listings.find? key with
    | none => rfl
    | some l => exact (Option.map_eq_bind ..).symm

def addAlias (t : Option Aliases) (e : Nat × Nat) : Option Aliases :=
  some ((t.getD ∅).insert e.2 (((t.getD ∅).find? e.2).getD [] ++ [e.1]))

theorem foldl_addAlias (shared : List (Nat × Nat)) (t : Aliases) :
    shared.foldl addAlias (some t) =
      some (shared.foldl (fun t e => t.insert e.2 ((t.find? e.2).getD [] ++ [e.1])) t) := by
  induction shared generalizing t with
  | nil => rfl
  | cons e shared ih => exact ih _

theorem aliasesOf_eq_foldl (shared : List (Nat × Nat)) :
    aliasesOf shared = shared.foldl addAlias none := by
  cases shared with
  | nil => rfl
  | cons e shared => exact (foldl_addAlias shared _).symm

namespace Comparison

def aliases (c : Comparison) : Version → Option Aliases
  | .kabuto => c.first
  | .kuwagata => c.second

def note (v : Version) (c : Comparison) (e : Nat × Nat) : Comparison :=
  match v with
  | .kabuto => { c with classes := c.classes.separate e.2, first := addAlias c.first e }
  | .kuwagata => { c with classes := c.classes.separate e.2, second := addAlias c.second e }

def visit (s : Version → Survey) (c : Comparison) (e : Version × Nat) : Comparison :=
  match (s e.1).shared? e.2 with
  | some shared => c.note e.1 shared
  | none => c

def sorted (s : Version → Survey) : Comparison :=
  ⟨Classes.ofSurveys (s .kabuto) (s .kuwagata), none, none⟩

/-- All steps: the missing keys, for one version after the other. -/
def visits (s : Version → Survey) : List (Version × Nat) :=
  Version.all.flatMap fun v => (sorted s).classes.missing.map fun key => (v, key)

/-- The comparison after the first `n` steps. -/
def after (s : Version → Survey) (n : Nat) : Comparison :=
  ((visits s).take n).foldl (visit s) (sorted s)

variable {s : Version → Survey} {c : Comparison}

theorem foldl_visit (s : Version → Survey) (v : Version) (missing : List Nat) (c : Comparison) :
    (missing.map fun key => (v, key)).foldl (visit s) c =
      (sharedKeys (s v) missing).foldl (note v) c := by
  rw [sharedKeys_eq_filterMap]
  induction missing generalizing c with
  | nil => rfl
  | cons key missing ih =>
    rw [map_cons, foldl_cons, ih, filterMap_cons, visit]
    cases (s v).shared? key <;> rfl

theorem foldl_note_kabuto (shared : List (Nat × Nat)) (c : Comparison) :
    shared.foldl (note .kabuto) c = { c with
      classes := shared.foldl (fun c e => c.separate e.2) c.classes
      first := shared.foldl addAlias c.first } := by
  induction shared generalizing c with
  | nil => rfl
  | cons e shared ih => rw [foldl_cons, ih]; rfl

theorem foldl_note_kuwagata (shared : List (Nat × Nat)) (c : Comparison) :
    shared.foldl (note .kuwagata) c = { c with
      classes := shared.foldl (fun c e => c.separate e.2) c.classes
      second := shared.foldl addAlias c.second } := by
  induction shared generalizing c with
  | nil => rfl
  | cons e shared ih => rw [foldl_cons, ih]; rfl

/-- **All steps give the comparison of the surveys.** -/
theorem ofSurveys_eq_after (s : Version → Survey) :
    ofSurveys (s .kabuto) (s .kuwagata) = after s (visits s).length := by
  rw [after, take_length, visits, Version.all, flatMap_cons, flatMap_singleton,
    foldl_append, foldl_visit, foldl_visit, foldl_note_kabuto, foldl_note_kuwagata, ofSurveys,
    aliasesOf_eq_foldl, aliasesOf_eq_foldl, foldl_append]
  rfl

end Comparison

/-! ### One class for every key -/

/-- Every key that brings a tileset in some version stands once and in one class; it is missing if
exactly one version brings it. -/
structure Classes.Partition (ls : Version → List Listing) (c : Classes) : Prop where
  disjoint : [c.common, c.tiles, c.position, c.both, c.missing].Pairwise List.Disjoint
  nodup : ∀ keys ∈ [c.common, c.tiles, c.position, c.both, c.missing], keys.Nodup
  mem_iff : ∀ key, (key ∈ c.common ∨ key ∈ c.tiles ∨ key ∈ c.position ∨ key ∈ c.both ∨
    key ∈ c.missing) ↔ ∃ v p, Introduces (ls v) key p
  missing_iff : ∀ key, key ∈ c.missing ↔ ∃! v, ∃ p, Introduces (ls v) key p

/-- A survey of each version, of the entries `ls`. -/
def Surveyed (image : Version → ByteArray) (ls : Version → List Listing) (s : Version → Survey) :
    Prop :=
  ∀ v, (s v).Sound (image v) (ls v)

variable {images : Version → ByteArray} {entries : Version → List Listing}
  {surveys : Version → Survey} {c : Classes} {first second : Table Nat Found}

theorem exists_version_iff : (∃ v, P v) ↔ P .kabuto ∨ P .kuwagata := by
  constructor
  · rintro ⟨v, hv⟩
    cases v with
    | kabuto => exact .inl hv
    | kuwagata => exact .inr hv
  · rintro (h | h)
    · exact ⟨_, h⟩
    · exact ⟨_, h⟩

theorem existsUnique_version_iff : (∃! v, P v) ↔ ¬(P .kabuto ↔ P .kuwagata) := by
  constructor
  · rintro ⟨v, hv, hunique⟩ hboth
    cases v with
    | kabuto => exact absurd (hunique _ (hboth.1 hv)) (by decide)
    | kuwagata => exact absurd (hunique _ (hboth.2 hv)) (by decide)
  · intro hdiffer
    by_cases hfirst : P .kabuto
    · refine ⟨.kabuto, hfirst, fun v hv => ?_⟩
      cases v with
      | kabuto => rfl
      | kuwagata => exact absurd (iff_of_true hfirst hv) hdiffer
    · have hsecond : P .kuwagata := by
        by_contra hsecond
        exact hdiffer (iff_of_false hfirst hsecond)
      refine ⟨.kuwagata, hsecond, fun v hv => ?_⟩
      cases v with
      | kabuto => exact absurd hv hfirst
      | kuwagata => rfl

theorem Classes.keys_eq_flatten (c : Classes) :
    c.keys = [c.common, c.tiles, c.position, c.both, c.missing].flatten := by
  simp [keys]

theorem Classes.Sorted.mem_missing_iff (h : c.Sorted first second done)
    (hdone : ∀ key, key ∈ done ↔ (first.find? key).isSome ∨ (second.find? key).isSome) :
    key ∈ c.missing ↔ Lone first second key := by
  refine ⟨h.missing key, fun hlone => ?_⟩
  -- in every other class both versions have one
  have hpaired : ∀ {same}, ¬Paired first second same key := by
    rintro same ⟨a, b, ha, hb, -⟩
    rw [Lone, ha, hb] at hlone
    exact hlone rfl
  have hkey : key ∈ c.keys := by
    rw [h.perm.mem_iff, hdone]
    by_contra hnone
    rw [not_or, Bool.not_eq_true, Bool.not_eq_true] at hnone
    exact hlone (hnone.1.trans hnone.2.symm)
  rcases mem_keys_iff.1 hkey with hmem | hmem | hmem | hmem | hmem
  · exact absurd (h.common key hmem) hpaired
  · exact absurd (h.tiles key hmem) hpaired
  · exact absurd (h.position key hmem) hpaired
  · exact absurd (h.both key hmem) hpaired
  · exact hmem

theorem Classes.Sorted.partition (hs : Surveyed images entries surveys)
    (h : c.Sorted (surveys .kabuto).found (surveys .kuwagata).found
      (allKeys (surveys .kabuto) (surveys .kuwagata))) : c.Partition entries := by
  have hnodup : c.keys.Nodup :=
    h.perm.nodup_iff.2 (nodup_allKeys (hs .kabuto).keys (hs .kuwagata).keys)
  rw [keys_eq_flatten, nodup_flatten] at hnodup
  refine ⟨hnodup.2, hnodup.1, fun key => ?_, fun key => ?_⟩
  · rw [← mem_keys_iff, h.perm.mem_iff, mem_allKeys_iff, (hs .kabuto).isSome_found_iff,
      (hs .kuwagata).isSome_found_iff, exists_version_iff]
  · rw [h.mem_missing_iff fun _ => mem_allKeys_iff, existsUnique_version_iff,
      ← (hs .kabuto).isSome_found_iff, ← (hs .kuwagata).isSome_found_iff, Lone, Ne, Bool.eq_iff_iff]

theorem Comparison.sorted_visit {c : Comparison} (h : c.classes.Sorted first second done)
    (e : Version × Nat) :
    (c.visit surveys e).classes.Sorted first second done := by
  unfold visit
  split
  · rename_i shared _
    have hclasses : (c.note e.1 shared).classes = c.classes.separate shared.2 := by
      unfold note
      split <;> rfl
    rw [hclasses]
    exact h.separate _
  · exact h

theorem Comparison.sorted_after (surveys : Version → Survey) (n : Nat) :
    (after surveys n).classes.Sorted (surveys .kabuto).found (surveys .kuwagata).found
      (allKeys (surveys .kabuto) (surveys .kuwagata)) := by
  have hall : ∀ (es : List (Version × Nat)) (c : Comparison),
      c.classes.Sorted (surveys .kabuto).found (surveys .kuwagata).found
        (allKeys (surveys .kabuto) (surveys .kuwagata)) →
      (es.foldl (visit surveys) c).classes.Sorted (surveys .kabuto).found
        (surveys .kuwagata).found (allKeys (surveys .kabuto) (surveys .kuwagata)) := by
    intro es
    induction es with
    | nil => exact fun _ h => h
    | cons e es ih => exact fun c h => ih _ (sorted_visit h e)
  exact hall _ _ (sorted_ofSurveys _ _)

/-! ### Tilesets of the shared source -/

/-- The keys of the first two classes have their tileset at one position in both versions. -/
def Classes.Steady (first second : Table Nat Found) (c : Classes) : Prop :=
  ∀ key, key ∈ c.common ∨ key ∈ c.tiles →
    (first.find? key).map Found.position = (second.find? key).map Found.position

theorem Classes.Steady.add (h : c.Steady first second) (key : Nat) :
    (c.add first second key).Steady first second := by
  unfold Classes.add
  split
  · rename_i a b ha hb
    -- a key joins the first two classes only if the positions are the same
    have hnew : (a.position == b.position) = true →
        (first.find? key).map Found.position = (second.find? key).map Found.position := by
      intro hposition
      rw [ha, hb, Option.map_some, Option.map_some, eq_of_beq hposition]
    split <;> rename_i hdata hposition
    · rintro k (hk | hk)
      · exact Sorted.mem_concat (fun k hk => h k (.inl hk)) (hnew hposition) k hk
      · exact h k (.inr hk)
    · rintro k (hk | hk)
      · exact h k (.inl hk)
      · exact Sorted.mem_concat (fun k hk => h k (.inr hk)) (hnew hposition) k hk
    · exact h
    · exact h
  · exact h

theorem steady_ofSurveys (s₁ s₂ : Survey) : (ofSurveys s₁ s₂).Steady s₁.found s₂.found := by
  have hall : ∀ (keys : List Nat) (c : Classes), c.Steady s₁.found s₂.found →
      (keys.foldl (add s₁.found s₂.found) c).Steady s₁.found s₂.found := by
    intro keys
    induction keys with
    | nil => exact fun _ h => h
    | cons key keys ih => exact fun c h => ih _ (h.add key)
  refine hall _ {} fun key hkey => ?_
  rcases hkey with hkey | hkey <;> cases hkey

theorem steady_comparison (s₁ s₂ : Survey) :
    (Comparison.ofSurveys s₁ s₂).classes.Steady s₁.found s₂.found := by
  obtain ⟨hcommon, htiles⟩ := foldl_separate_subset
    (sharedKeys s₁ (ofSurveys s₁ s₂).missing ++
      sharedKeys s₂ (ofSurveys s₁ s₂).missing) (ofSurveys s₁ s₂)
  rintro key (hkey | hkey)
  · exact steady_ofSurveys s₁ s₂ key (.inl (hcommon hkey))
  · exact steady_ofSurveys s₁ s₂ key (.inr (htiles hkey))

theorem find?_aliasesOf_eq_none {shared : List (Nat × Nat)} (h : ∀ e ∈ shared, e.2 ≠ o) :
    (aliasesOf shared).bind (fun t => t.find? o) = none := by
  have hall : ∀ (shared : List (Nat × Nat)) (t : Aliases), (∀ e ∈ shared, e.2 ≠ o) →
      t.find? o = none →
      (shared.foldl (fun t e => t.insert e.2 ((t.find? e.2).getD [] ++ [e.1])) t).find? o = none := by
    intro shared
    induction shared with
    | nil => exact fun _ _ ht => ht
    | cons e shared ih =>
      intro t hne ht
      obtain ⟨he, hrest⟩ := forall_mem_cons.1 hne
      exact ih _ hrest ((Table.find?_insert_of_ne t he.symm _).trans ht)
  unfold aliasesOf
  split
  · rfl
  · exact hall shared ∅ h rfl

theorem find?_aliases_eq_none (hs : Surveyed images entries surveys)
    (hkey : key ∈ (Comparison.ofSurveys (surveys .kabuto) (surveys .kuwagata)).classes.common ∨
      key ∈ (Comparison.ofSurveys (surveys .kabuto) (surveys .kuwagata)).classes.tiles)
    (v : Version) :
    ((Comparison.ofSurveys (surveys .kabuto) (surveys .kuwagata)).aliases v).bind
      (fun t => t.find? key) = none := by
  have hnot : ∀ w : Version, ∀ e ∈ sharedKeys (surveys w)
      (ofSurveys (surveys .kabuto) (surveys .kuwagata)).missing, e.2 ≠ key := by
    rintro w e he rfl
    have hmem : e ∈ sharedKeys (surveys .kabuto)
          (ofSurveys (surveys .kabuto) (surveys .kuwagata)).missing ++
        sharedKeys (surveys .kuwagata)
          (ofSurveys (surveys .kabuto) (surveys .kuwagata)).missing := by
      cases w with
      | kabuto => exact mem_append_left _ he
      | kuwagata => exact mem_append_right _ he
    obtain ⟨hcommon, htiles⟩ := not_mem_foldl_separate (sorted_ofSurveys _ _)
      (nodup_allKeys (hs .kabuto).keys (hs .kuwagata).keys) hmem
    exact hkey.elim hcommon htiles
  cases v with
  | kabuto => exact find?_aliasesOf_eq_none (hnot .kabuto)
  | kuwagata => exact find?_aliasesOf_eq_none (hnot .kuwagata)

/-- **Classes are a partition throughout.**  After the keys are sorted, and after every step through
the missing ones, each key that brings a tileset in some version stands once and in one class, and
is missing exactly if one version alone brings it.  In the end the tilesets of the first two classes
have one place in both versions and no other name. -/
theorem Comparison.partition_throughout (hs : ∀ v, Survey.read (images v) = .ok (surveys v))
    (hls : ∀ v, readListings (images v) = .ok (entries v)) :
    (∀ n, (after surveys n).classes.Partition entries) ∧
      ofSurveys (surveys .kabuto) (surveys .kuwagata) = after surveys (visits surveys).length ∧
      ∀ key, (key ∈ (ofSurveys (surveys .kabuto) (surveys .kuwagata)).classes.common ∨
          key ∈ (ofSurveys (surveys .kabuto) (surveys .kuwagata)).classes.tiles) →
        (∃ p, ∀ v, Introduces (entries v) key p) ∧
          ∀ v, ((ofSurveys (surveys .kabuto) (surveys .kuwagata)).aliases v).bind
            (fun t => t.find? key) = none := by
  have hsound : Surveyed images entries surveys := by
    intro v
    obtain ⟨ls, hls', hsound⟩ := sound_read (hs v)
    rw [hls v, Except.ok.injEq] at hls'
    rwa [hls']
  refine ⟨fun n => (sorted_after surveys n).partition hsound, ofSurveys_eq_after surveys,
    fun key hkey => ⟨?_, find?_aliases_eq_none hsound hkey⟩⟩
  have hsorted := sorted_comparison (surveys .kabuto) (surveys .kuwagata)
  obtain ⟨a, b, ha, hb⟩ : ∃ a b, (surveys .kabuto).found.find? key = some a ∧
      (surveys .kuwagata).found.find? key = some b := by
    rcases hkey with hkey | hkey
    · obtain ⟨a, b, ha, hb, -⟩ := hsorted.common key hkey
      exact ⟨a, b, ha, hb⟩
    · obtain ⟨a, b, ha, hb, -⟩ := hsorted.tiles key hkey
      exact ⟨a, b, ha, hb⟩
  have hposition := steady_comparison (surveys .kabuto) (surveys .kuwagata) key hkey
  rw [ha, hb, Option.map_some, Option.map_some, Option.some.injEq] at hposition
  refine ⟨a.position, fun v => (hsound v).find?_found_iff.1 ?_⟩
  cases v with
  | kabuto => exact ⟨a, ha, rfl⟩
  | kuwagata => exact ⟨b, hb, hposition.symm⟩

/-! ### Small images -/

/-- An image with an empty tile at its start, another one after it, and the given entries. -/
def twoTiles (front : List Listing) : ByteArray := imageOf (plainTile ++ plainTile) (filled front)

/-- Every entry is empty or leads to one of the two tiles. -/
def Leads (front : List Listing) : Prop := ∀ l ∈ front, l = vacant ∨ l = leading 0 ∨ l = leading 19

theorem mem_filled (hfront : Leads front) (hl : l ∈ filled front) :
    l = vacant ∨ l = leading 0 ∨ l = leading 19 := by
  rcases mem_append.1 hl with hl | hl
  · exact hfront l hl
  · exact .inl (mem_replicate.1 hl).2

theorem readListings_twoTiles (hfront : Leads front) (hlength : front.length ≤ entryCount) :
    readListings (twoTiles front) = .ok (filled front) := by
  refine readListings_filled (by decide) hlength fun l hl => ?_
  rcases hfront l hl with rfl | rfl | rfl
  · exact fits_vacant
  · exact fits_leading (by decide)
  · exact fits_leading (by decide)

theorem readAt_twoTiles (front : List Listing) {p : Nat} (hp : p = 0 ∨ p = 19) :
    readAt (twoTiles front) p = .ok ⟨(List.replicate 16 0).toArray, plainTile.toByteArray⟩ := by
  have hboth := holds_append.1 (holds_imageOf (plainTile ++ plainTile) (filled front))
  have hheld : Holds (twoTiles front) p plainTile := by
    rcases hp with rfl | rfl
    · exact hboth.1
    · exact hboth.2
  have hdecode : decode (twoTiles front) p = _ :=
    decode_plain (l := List.replicate 16 0) (by decide) hheld
  refine bind_ok_iff.2 ⟨p, ?_, ?_⟩
  · rcases hp with rfl | rfl <;> rfl
  · rw [hdecode]
    rfl

theorem readAt_filled (hfront : Leads front) (hl : l ∈ filled front)
    (hempty : l.position ≠ emptyPosition) :
    readAt (twoTiles front) l.position =
      .ok ⟨(List.replicate 16 0).toArray, plainTile.toByteArray⟩ := by
  have hfirst : (leading 0).position = (0 : Nat) := by decide
  have hsecond : (leading 19).position = (19 : Nat) := by decide
  rcases mem_filled hfront hl with rfl | rfl | rfl
  · exact absurd rfl hempty
  · rw [hfirst, readAt_twoTiles front (.inl rfl)]
  · rw [hsecond, readAt_twoTiles front (.inr rfl)]

/-- The second entry has a tileset of its own in the first version and shares that of the first
entry in the second one, so the first entry is separated. -/
def sharedFronts : Version → List Listing :=
  Dump.perVersion [leading 0, leading 19] [leading 0, leading 0]

theorem leads_sharedFronts (v : Version) : Leads (sharedFronts v) := by
  unfold Leads
  cases v with
  | kabuto | kuwagata => decide

theorem Comparison.partition_throughout_shared :
    ∃ surveys : Version → Survey,
      (∀ v, Survey.read (twoTiles (sharedFronts v)) = .ok (surveys v)) ∧
      (∀ v, readListings (twoTiles (sharedFronts v)) = .ok (filled (sharedFronts v))) ∧
      (∀ n, (after surveys n).classes.Partition fun v => filled (sharedFronts v)) ∧
      ofSurveys (surveys .kabuto) (surveys .kuwagata) = after surveys (visits surveys).length ∧
      ∀ key, (key ∈ (ofSurveys (surveys .kabuto) (surveys .kuwagata)).classes.common ∨
          key ∈ (ofSurveys (surveys .kabuto) (surveys .kuwagata)).classes.tiles) →
        (∃ p, ∀ v, Introduces (filled (sharedFronts v)) key p) ∧
          ∀ v, ((ofSurveys (surveys .kabuto) (surveys .kuwagata)).aliases v).bind
            (fun t => t.find? key) = none := by
  have hlength : ∀ v, (sharedFronts v).length ≤ entryCount := by
    intro v
    cases v with
    | kabuto | kuwagata => decide
  have hls : ∀ v, readListings (twoTiles (sharedFronts v)) = .ok (filled (sharedFronts v)) :=
    fun v => readListings_twoTiles (leads_sharedFronts v) (hlength v)
  choose surveys hs using fun v => exists_read (hls v) fun _ hl hempty =>
    ⟨_, readAt_filled (leads_sharedFronts v) hl hempty⟩
  exact ⟨surveys, hs, hls, partition_throughout hs hls⟩

end Cartridge.Tileset
