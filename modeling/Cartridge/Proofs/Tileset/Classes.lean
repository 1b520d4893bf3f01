import Cartridge.Proofs.Tileset.Survey
import Mathlib.Data.List.Perm.Basic
import Mathlib.Data.List.Count

/-!
# Classes of tilesets

Comparing two versions sorts the keys that own a tileset in either of them into five classes.

* `mem_sharedKeys_iff`, `getD_aliasesOf`: the other names of a tileset in a version.
* `Classes.not_mem_foldl_separate`: a tileset with other names is in no class of the shared source.
-/

open List

namespace Cartridge.Tileset

variable {first second : Table Nat Found} {done missing : List Nat} {c : Classes} {key k o : Nat}
  {shared : List (Nat × Nat)}

/-! ### Sorting -/

/-- Both versions have a tileset at the key, and its tiles are the same or not. -/
def Paired (first second : Table Nat Found) (same : Bool) (key : Nat) : Prop :=
  ∃ a b, first.find? key = some a ∧ second.find? key = some b ∧
    (a.tiles.data == b.tiles.data) = same

/-- Exactly one version has a tileset at the key. -/
def Lone (first second : Table Nat Found) (key : Nat) : Prop :=
  (first.find? key).isSome ≠ (second.find? key).isSome

/-- The keys `done` are sorted by their tilesets, each into one class. -/
structure Classes.Sorted (first second : Table Nat Found) (done : List Nat) (c : Classes) :
    Prop where
  perm : c.keys.Perm done
  common : ∀ key ∈ c.common, Paired first second true key
  tiles : ∀ key ∈ c.tiles, Paired first second false key
  position : ∀ key ∈ c.position, Paired first second true key
  both : ∀ key ∈ c.both, Paired first second false key
  missing : ∀ key ∈ c.missing, Lone first second key

namespace Classes.Sorted

variable {l keys : List Nat}

theorem start : Sorted first second [] {} where
  perm := .nil
  common := nofun
  tiles := nofun
  position := nofun
  both := nofun
  missing := nofun

theorem mem_concat {P : Nat → Prop} (h : ∀ k ∈ l, P k) (hkey : P key) : ∀ k ∈ l ++ [key], P k := by
  intro k hk
  rcases mem_append.1 hk with hk | hk
  · exact h k hk
  · rwa [mem_singleton.1 hk]

theorem add (h : Sorted first second done c)
    (hkey : (first.find? key).isSome ∨ (second.find? key).isSome) :
    Sorted first second (done ++ [key]) (c.add first second key) := by
  have hperm : ∀ c' : Classes, (∀ k, c'.keys.count k = (c.keys ++ [key]).count k) →
      c'.keys.Perm (done ++ [key]) := by
    intro c' hcount
    exact (perm_iff_count.2 hcount).trans (h.perm.append_right [key])
  unfold Classes.add
  split
  · rename_i a b ha hb
    split <;> rename_i hdata hposition
    · refine ⟨hperm _ fun k => ?_, mem_concat h.common ⟨a, b, ha, hb, hdata⟩, h.tiles, h.position,
        h.both, h.missing⟩
      simp only [Classes.keys, count_append]
      omega
    · refine ⟨hperm _ fun k => ?_, h.common, mem_concat h.tiles ⟨a, b, ha, hb, hdata⟩, h.position,
        h.both, h.missing⟩
      simp only [Classes.keys, count_append]
      omega
    · refine ⟨hperm _ fun k => ?_, h.common, h.tiles, mem_concat h.position ⟨a, b, ha, hb, hdata⟩,
        h.both, h.missing⟩
      simp only [Classes.keys, count_append]
      omega
    · refine ⟨hperm _ fun k => ?_, h.common, h.tiles, h.position,
        mem_concat h.both ⟨a, b, ha, hb, hdata⟩, h.missing⟩
      simp only [Classes.keys, count_append]
      omega
  · rename_i hnone
    have hlone : Lone first second key := by
      unfold Lone
      cases ha : first.find? key with
      | none =>
        rw [ha] at hkey
        have hb : (second.find? key).isSome := hkey.resolve_left Bool.false_ne_true
        rw [hb]
        exact Bool.false_ne_true
      | some a =>
        cases hb : second.find? key with
        | none => simp
        | some b => exact absurd hb (hnone a b ha)
    refine ⟨hperm _ fun k => ?_, h.common, h.tiles, h.position, h.both, mem_concat h.missing hlone⟩
    simp only [Classes.keys, count_append]
    omega

theorem foldl_add (h : Sorted first second done c)
    (hkeys : ∀ key ∈ keys, (first.find? key).isSome ∨ (second.find? key).isSome) :
    Sorted first second (done ++ keys) (keys.foldl (Classes.add first second) c) := by
  induction keys generalizing done c with
  | nil => rwa [append_nil]
  | cons key keys ih =>
    have hrest := ih (h.add (hkeys key mem_cons_self)) fun k hk => hkeys k (mem_cons_of_mem _ hk)
    rwa [append_assoc] at hrest

theorem count_erase_add (h : key ∈ l) (k : Nat) :
    (l.erase key).count k + [key].count k = l.count k := by
  rw [(perm_cons_erase h).count_eq k, count_cons, count_cons, count_nil, Nat.zero_add]

theorem separate (h : Sorted first second done c) (key : Nat) :
    Sorted first second done (c.separate key) := by
  unfold Classes.separate
  split
  · rename_i hmem
    rw [contains_iff_mem] at hmem
    refine ⟨.trans (perm_iff_count.2 fun k => ?_) h.perm,
      fun k hk => h.common k (mem_of_mem_erase hk), h.tiles,
      mem_concat h.position (h.common key hmem), h.both, h.missing⟩
    have hcount := count_erase_add hmem k
    simp only [Classes.keys, count_append]
    omega
  · split
    · rename_i hmem
      rw [contains_iff_mem] at hmem
      refine ⟨.trans (perm_iff_count.2 fun k => ?_) h.perm, h.common,
        fun k hk => h.tiles k (mem_of_mem_erase hk), h.position,
        mem_concat h.both (h.tiles key hmem), h.missing⟩
      have hcount := count_erase_add hmem k
      simp only [Classes.keys, count_append]
      omega
    · exact h

theorem foldl_separate (h : Sorted first second done c) :
    Sorted first second done (shared.foldl (fun c e => c.separate e.2) c) := by
  induction shared generalizing c with
  | nil => exact h
  | cons e shared ih => exact ih (h.separate e.2)

end Classes.Sorted

/-! ### All keys -/

namespace Classes

theorem mem_keys_iff : key ∈ c.keys ↔ key ∈ c.common ∨ key ∈ c.tiles ∨ key ∈ c.position ∨
    key ∈ c.both ∨ key ∈ c.missing := by
  simp only [keys, mem_append, or_assoc]

theorem mem_keys_of_common (h : key ∈ c.common) : key ∈ c.keys := mem_keys_iff.2 (.inl h)

theorem mem_keys_of_position (h : key ∈ c.position) : key ∈ c.keys :=
  mem_keys_iff.2 (.inr (.inr (.inl h)))

theorem mem_keys_of_own (h : key ∈ c.tiles ∨ key ∈ c.both ∨ key ∈ c.missing) : key ∈ c.keys := by
  rw [mem_keys_iff]
  rcases h with h | h
  · exact .inr (.inl h)
  · exact .inr (.inr (.inr h))

theorem mem_keys_of_missing (h : key ∈ c.missing) : key ∈ c.keys := mem_keys_of_own (.inr (.inr h))

theorem notMem_position_of_common (hc : c.keys.Nodup) (h : key ∈ c.common) : key ∉ c.position := by
  intro hmem
  simp only [keys, append_assoc] at hc
  exact (nodup_append.1 hc).2.2 key h key (by simp [hmem]) rfl

/-! ### Separated keys -/

theorem separate_missing (c : Classes) (key : Nat) : (c.separate key).missing = c.missing := by
  unfold separate
  split
  · rfl
  · split <;> rfl

theorem foldl_separate_missing (shared : List (Nat × Nat)) (c : Classes) :
    (shared.foldl (fun c e => c.separate e.2) c).missing = c.missing := by
  induction shared generalizing c with
  | nil => rfl
  | cons e shared ih => rw [foldl_cons, ih, separate_missing]

theorem separate_subset (c : Classes) (key : Nat) :
    (c.separate key).common ⊆ c.common ∧ (c.separate key).tiles ⊆ c.tiles := by
  unfold separate
  split
  · exact ⟨erase_subset, List.Subset.refl _⟩
  · split
    · exact ⟨List.Subset.refl _, erase_subset⟩
    · exact ⟨List.Subset.refl _, List.Subset.refl _⟩

theorem foldl_separate_subset (shared : List (Nat × Nat)) (c : Classes) :
    (shared.foldl (fun c e => c.separate e.2) c).common ⊆ c.common ∧
      (shared.foldl (fun c e => c.separate e.2) c).tiles ⊆ c.tiles := by
  induction shared generalizing c with
  | nil => exact ⟨List.Subset.refl _, List.Subset.refl _⟩
  | cons e shared ih =>
    obtain ⟨hcommon, htiles⟩ := separate_subset c e.2
    obtain ⟨hcommon', htiles'⟩ := ih (c.separate e.2)
    exact ⟨List.Subset.trans hcommon' hcommon, List.Subset.trans htiles' htiles⟩

theorem not_mem_separate (hc : c.keys.Nodup) (key : Nat) :
    key ∉ (c.separate key).common ∧ key ∉ (c.separate key).tiles := by
  have hkeys : (c.common ++ c.tiles).Nodup := by
    rw [keys, append_assoc, append_assoc] at hc
    exact (nodup_append.1 hc).1
  obtain ⟨hcommon, htiles, hdisjoint⟩ := nodup_append.1 hkeys
  unfold separate
  split
  · rename_i hmem
    rw [contains_iff_mem] at hmem
    exact ⟨hcommon.not_mem_erase, fun hmem' => hdisjoint key hmem key hmem' rfl⟩
  · rename_i hnot
    rw [contains_iff_mem] at hnot
    split
    · exact ⟨hnot, htiles.not_mem_erase⟩
    · rename_i hnot'
      rw [contains_iff_mem] at hnot'
      exact ⟨hnot, hnot'⟩

theorem not_mem_foldl_separate (h : c.Sorted first second done) (hdone : done.Nodup) {e : Nat × Nat}
    (he : e ∈ shared) :
    e.2 ∉ (shared.foldl (fun c e => c.separate e.2) c).common ∧
      e.2 ∉ (shared.foldl (fun c e => c.separate e.2) c).tiles := by
  induction shared generalizing c with
  | nil => cases he
  | cons e' shared ih =>
    rcases mem_cons.1 he with rfl | he
    · -- a key that has left the first two classes does not come back
      obtain ⟨hcommon, htiles⟩ := not_mem_separate (h.perm.nodup_iff.2 hdone) e.2
      obtain ⟨hsubset, hsubset'⟩ := foldl_separate_subset shared (c.separate e.2)
      exact ⟨fun hmem => hcommon (hsubset hmem), fun hmem => htiles (hsubset' hmem)⟩
    · exact ih (h.separate e'.2) he

end Classes

/-! ### Comparing versions -/

/-- The keys that own a tileset in either version, those of the first one first. -/
def allKeys (first second : Survey) : List Nat :=
  first.found.keys ++ second.found.keys.filter fun k => !first.found.contains k

variable {s s₁ s₂ : Survey}

theorem mem_allKeys_iff : key ∈ allKeys s₁ s₂ ↔
    (s₁.found.find? key).isSome ∨ (s₂.found.find? key).isSome := by
  have hkeys : ∀ t : Table Nat Found, key ∈ t.keys ↔ (t.find? key).isSome := fun t => by
    rw [Table.mem_keys_iff, Option.isSome_iff_exists]
  rw [allKeys, mem_append, mem_filter, hkeys, hkeys, Table.contains]
  cases (s₁.found.find? key).isSome <;> simp

theorem nodup_allKeys (h₁ : s₁.found.keys.Nodup) (h₂ : s₂.found.keys.Nodup) :
    (allKeys s₁ s₂).Nodup := by
  refine nodup_append.2 ⟨h₁, h₂.filter _, ?_⟩
  rintro key hkey _ hkey' rfl
  obtain ⟨t, ht⟩ := Table.mem_keys_iff.1 hkey
  have hnot := (mem_filter.1 hkey').2
  rw [Table.contains, ht] at hnot
  cases hnot

theorem sorted_ofSurveys (s₁ s₂ : Survey) :
    (Classes.ofSurveys s₁ s₂).Sorted s₁.found s₂.found (allKeys s₁ s₂) :=
  Classes.Sorted.start.foldl_add fun _ hkey => mem_allKeys_iff.1 hkey

/-- **Compared versions** have every key in the class that its tilesets call for. -/
theorem sorted_comparison (s₁ s₂ : Survey) :
    (Comparison.ofSurveys s₁ s₂).classes.Sorted s₁.found s₂.found (allKeys s₁ s₂) :=
  (sorted_ofSurveys s₁ s₂).foldl_separate

theorem missing_comparison (s₁ s₂ : Survey) :
    (Comparison.ofSurveys s₁ s₂).classes.missing = (Classes.ofSurveys s₁ s₂).missing :=
  Classes.foldl_separate_missing _ _

/-! ### Other names -/

theorem mem_sharedKeys_iff : (k, o) ∈ sharedKeys s missing ↔
    k ∈ missing ∧ s.found.find? k = none ∧ s.owner? k = some o := by
  rw [sharedKeys, mem_filterMap]
  constructor
  · rintro ⟨key, hkey, h⟩
    split at h
    · cases h
    · rename_i hfound
      rw [Table.contains, Bool.not_eq_true, Option.isSome_eq_false_iff, Option.isNone_iff_eq_none]
        at hfound
      simp only [Option.bind_eq_bind, Option.bind_eq_some_iff, Option.pure_def,
        Option.some.injEq, Prod.mk.injEq] at h
      obtain ⟨l, hl, owner, howner, rfl, rfl⟩ := h
      refine ⟨hkey, hfound, ?_⟩
      rw [Survey.owner?, hl]
      exact howner
  · rintro ⟨hkey, hfound, howner⟩
    refine ⟨k, hkey, ?_⟩
    rw [Survey.owner?, Option.bind_eq_bind, Option.bind_eq_some_iff] at howner
    obtain ⟨l, hl, howner⟩ := howner
    rw [Table.contains, hfound, hl,
      Option.bind_eq_bind, Option.bind_some, howner]
    rfl

theorem getD_foldl_insert (shared : List (Nat × Nat)) (t : Aliases) (o : Nat) :
    ((shared.foldl (fun t e => t.insert e.2 ((t.find? e.2).getD [] ++ [e.1])) t).find? o).getD [] =
      (t.find? o).getD [] ++ (shared.filter fun e => e.2 == o).map Prod.fst := by
  induction shared generalizing t with
  | nil => rw [filter_nil, map_nil, append_nil]; rfl
  | cons e shared ih =>
    rw [foldl_cons, ih]
    by_cases ho : e.2 = o
    · subst ho
      rw [Table.find?_insert_self, filter_cons_of_pos (by simp), Option.getD_some, append_assoc]
      rfl
    · rw [Table.find?_insert_of_ne _ (Ne.symm ho), filter_cons_of_neg (by simpa using ho)]

theorem getD_aliasesOf (shared : List (Nat × Nat)) (o : Nat) :
    ((aliasesOf shared).bind fun t => t.find? o).getD [] =
      (shared.filter fun e => e.2 == o).map Prod.fst := by
  unfold aliasesOf
  split
  · rename_i hempty
    rw [List.isEmpty_iff.1 hempty]
    rfl
  · exact getD_foldl_insert shared ∅ o

end Cartridge.Tileset
