import Cartridge.Proofs.Tileset.Partition

/-!
# Other names of a version

A version has a table of other names only if it lacks a tileset that the other version brings, and
no tileset goes to the sources of the versions only if both bring the same ones.

Main results: `Dump.Sound.isSome_aliases_iff` and `Dump.Sound.apart_eq_nil_iff`.
-/

namespace Cartridge.Tileset

open Classes

variable {entries : Version → List Listing} {images : Version → ByteArray} {s : Survey}
  {c : Classes} {first second : Table Nat Found} {key : Nat} {v : Version} {d : Dump}

/-- Some version brings a tileset with a key that brings none in the version `v`. -/
def Lacks (entries : Version → List Listing) (v : Version) : Prop :=
  ∃ key, (∀ p, ¬Introduces (entries v) key p) ∧ ∃ u p, Introduces (entries u) key p

/-- All versions bring their tilesets with the same keys and from the same positions. -/
def Agree (entries : Version → List Listing) : Prop :=
  ∀ u v key p, Introduces (entries u) key p → Introduces (entries v) key p

/-- No version needs other names, or each has some. -/
def Balanced (entries : Version → List Listing) : Prop := Agree entries ∨ ∀ v, Lacks entries v

/-- The keys whose tilesets go to the sources of the versions. -/
def Classes.apart (c : Classes) : List Nat := c.position ++ c.both ++ c.missing

theorem Classes.mem_apart_iff :
    key ∈ c.apart ↔ key ∈ c.position ∨ key ∈ c.both ∨ key ∈ c.missing := by
  rw [apart, List.mem_append, List.mem_append, or_assoc]

theorem Classes.mem_keys_of_apart (h : key ∈ c.apart) : key ∈ c.keys :=
  mem_keys_iff.2 (.inr (.inr (mem_apart_iff.1 h)))

theorem Classes.apart_add {a b : Found} (ha : first.find? key = some a)
    (hb : second.find? key = some b) (hposition : a.position = b.position) (c : Classes) :
    (c.add first second key).apart = c.apart := by
  rw [add, ha, hb]
  simp only [hposition, beq_self_eq_true]
  cases a.tiles.data == b.tiles.data with
  | true | false => rfl

theorem aliasesOf_eq_none_iff {shared : List (Nat × Nat)} : aliasesOf shared = none ↔ shared = [] := by
  cases shared with
  | nil => exact iff_of_true rfl rfl
  | cons e shared => exact iff_of_false (Option.some_ne_none _) (List.cons_ne_nil _ _)

namespace Dump.Sound

section

variable (h : d.Sound images entries)

include h

theorem aliases_eq_none_iff : d.aliases v = none ↔
    ∀ key ∈ d.comparison.classes.missing, ((d.survey v).found.find? key).isSome := by
  rw [h.aliases_eq, aliasesOf_eq_none_iff, sharedKeys_eq_filterMap, List.filterMap_eq_nil_iff]
  refine forall₂_congr fun key hkey => ?_
  obtain ⟨i, hi, rfl⟩ := h.exists_keyOf (mem_keys_of_missing hkey)
  -- every entry of the tables has an owner
  obtain ⟨o, howner⟩ : ∃ o, (d.survey v).owner? (keyOf i) = some o := by
    rcases h.owner_cases v hi with howner | ⟨o, -, howner, -⟩
    · exact ⟨_, howner⟩
    · exact ⟨o, howner⟩
  rw [Survey.shared?, howner, Table.contains]
  cases ((d.survey v).found.find? (keyOf i)).isSome <;> simp

/-- **A version has other names exactly if it lacks a tileset.** -/
theorem isSome_aliases_iff : (d.aliases v).isSome ↔ Lacks entries v := by
  rw [Option.isSome_iff_ne_none, Ne, h.aliases_eq_none_iff]
  simp only [not_forall]
  constructor
  · rintro ⟨key, hmissing, hnone⟩
    obtain ⟨u, t, ht⟩ := h.mem_keys_iff.1 (mem_keys_of_missing hmissing)
    refine ⟨key, fun p hp => hnone ((h.survey v).isSome_found_iff.2 ⟨p, hp⟩), u, ?_⟩
    exact (h.survey u).isSome_found_iff.1 (Option.isSome_iff_exists.2 ⟨t, ht⟩)
  · rintro ⟨key, hlacks, u, hbrings⟩
    obtain ⟨t, ht⟩ := Option.isSome_iff_exists.1 ((h.survey u).isSome_found_iff.2 hbrings)
    have hnone : ¬((d.survey v).found.find? key).isSome := by
      rw [(h.survey v).isSome_found_iff]
      exact not_exists.2 hlacks
    exact ⟨key, h.mem_missing (h.mem_keys_iff.2 ⟨u, t, ht⟩) (Option.not_isSome_iff_eq_none.1 hnone),
      hnone⟩

theorem exists_found_of_agree (hagree : Agree entries) (hkey : key ∈ allKeys d.first d.second) :
    ∃ a b, d.first.found.find? key = some a ∧
      d.second.found.find? key = some b ∧ a.position = b.position := by
  obtain ⟨u, t, ht⟩ := h.mem_keys_iff.1 (h.sorted.perm.mem_iff.2 hkey)
  have hbrings : ∀ v, ∃ f, (d.survey v).found.find? key = some f ∧ f.position = t.position :=
    fun v => (h.survey v).find?_found_iff.2
      (hagree u v key t.position ((h.survey u).find?_found_iff.1 ⟨t, ht, rfl⟩))
  obtain ⟨a, ha, hposition⟩ := hbrings .kabuto
  obtain ⟨b, hb, hposition'⟩ := hbrings .kuwagata
  exact ⟨a, b, ha, hb, hposition.trans hposition'.symm⟩

theorem apart_eq_nil_of_agree (hagree : Agree entries) : d.comparison.classes.apart = [] := by
  have hall : ∀ (keys : List Nat) (c : Classes), (∀ key ∈ keys, key ∈ allKeys d.first d.second) →
      (keys.foldl (add d.first.found d.second.found) c).apart = c.apart := by
    intro keys
    induction keys with
    | nil => exact fun _ _ => rfl
    | cons key keys ih =>
      intro c hkeys
      obtain ⟨hkey, hrest⟩ := List.forall_mem_cons.1 hkeys
      obtain ⟨a, b, ha, hb, hposition⟩ := h.exists_found_of_agree hagree hkey
      exact (ih _ hrest).trans (apart_add ha hb hposition c)
  have hapart : (ofSurveys d.first d.second).apart = [] := hall _ {} fun _ => id
  have hmissing : (ofSurveys d.first d.second).missing = [] :=
    (List.append_eq_nil_iff.1 hapart).2
  rw [h.comparison, Comparison.ofSurveys, hmissing]
  exact hapart

/-- **All tilesets are in the shared source exactly if the versions agree.** -/
theorem apart_eq_nil_iff : d.comparison.classes.apart = [] ↔ Agree entries := by
  refine ⟨fun hnil u v key p hbrings => ?_, h.apart_eq_nil_of_agree⟩
  have hsteady : d.comparison.classes.Steady d.first.found d.second.found := by
    rw [h.comparison]
    exact steady_comparison d.first d.second
  obtain ⟨t, ht, rfl⟩ := (h.survey u).find?_found_iff.2 hbrings
  have hshared : key ∈ d.comparison.classes.common ∨ key ∈ d.comparison.classes.tiles := by
    rcases Classes.mem_keys_iff.1 (h.mem_keys_iff.2 ⟨u, t, ht⟩) with hkey | hkey | hkey
    · exact .inl hkey
    · exact .inr hkey
    · cases hnil ▸ mem_apart_iff.2 hkey
  have hsame : ((d.survey v).found.find? key).map Found.position =
      ((d.survey u).found.find? key).map Found.position := by
    have hboth := hsteady key hshared
    cases u <;> cases v
    · rfl
    · exact hboth.symm
    · exact hboth
    · rfl
  rw [ht, Option.map_some, Option.map_eq_some_iff] at hsame
  exact (h.survey v).find?_found_iff.1 hsame

theorem balanced_iff : Balanced entries ↔
    ∀ v, (d.aliases v).isSome ∨ d.comparison.classes.apart = [] := by
  simp only [Balanced, h.isSome_aliases_iff, h.apart_eq_nil_iff, forall_or_right]
  exact or_comm

end

end Dump.Sound

end Cartridge.Tileset
