import Cartridge.Proofs.Fault
import Cartridge.Proofs.Table

/-!
# Items stored one after another

Texts and entries are stored one after another, and a table tells for every key where its bytes
begin.  An item may have its own place, share that of an item recorded before it, or lead to an
address outside.

Main result: `Recorded.concat`.
-/

open List

namespace Cartridge

inductive Target (κ : Type) where
  | own
  | shared (key : κ)
  | fixed (address : Int)
  deriving DecidableEq, Repr

/-- Bytes that are stored under a key. -/
structure Item (κ : Type) where
  key : κ
  target : Target κ
  bytes : List UInt8
  deriving DecidableEq, Repr

inductive Spot where
  | offset (n : Nat)
  | address (a : Int)
  deriving DecidableEq, Repr

def Spot.value : Spot → Int
  | offset n => n
  | address a => a

namespace Item

variable {κ : Type}

def stored (items : List (Item κ)) : List UInt8 := items.flatMap bytes

variable [DecidableEq κ]

/-- What is recorded for a key by items, the last one first, that are stored after `lead` bytes. -/
def spotIn (lead : Nat) : List (Item κ) → κ → Option Spot
  | [], _ => none
  | item :: earlier, k =>
    if item.key = k then
      match item.target with
      | .own => some (.offset (lead + (stored earlier.reverse).length))
      | .shared other => spotIn lead earlier other
      | .fixed a => some (.address a)
    else spotIn lead earlier k

/-- What is recorded for a key once items are stored after `lead` bytes. -/
def spotOf (lead : Nat) (items : List (Item κ)) (k : κ) : Option Spot := spotIn lead items.reverse k

def spotAfter (lead : Nat) (items : List (Item κ)) : Target κ → Option Spot
  | .own => some (.offset (lead + (stored items).length))
  | .shared other => spotOf lead items other
  | .fixed a => some (.address a)

variable {lead : Nat} {items before after : List (Item κ)} {item : Item κ} {k : κ} {s : Spot}

theorem spotOf_concat_self (lead : Nat) (items : List (Item κ)) (item : Item κ) :
    spotOf lead (items ++ [item]) item.key = spotAfter lead items item.target := by
  rw [spotOf, reverse_append, reverse_singleton, singleton_append, spotIn,
    if_pos rfl, reverse_reverse]
  cases item.target <;> rfl

theorem spotOf_concat_of_ne (hne : k ≠ item.key) :
    spotOf lead (items ++ [item]) k = spotOf lead items k := by
  rw [spotOf, reverse_append, reverse_singleton, singleton_append, spotIn, if_neg (Ne.symm hne)]
  rfl

theorem spotOf_of_split (hsplit : items = before ++ item :: after)
    (hlast : item.key ∉ after.map key) :
    spotOf lead items item.key = spotAfter lead before item.target := by
  subst hsplit
  induction after using List.reverseRecOn with
  | nil => exact spotOf_concat_self lead before item
  | append_singleton after last ih =>
    simp only [map_append, map_singleton, mem_append, mem_singleton, not_or] at hlast
    rw [← cons_append, ← append_assoc, spotOf_concat_of_ne hlast.2]
    exact ih hlast.1

theorem spotOf_of_fixed {a : Int} (hnodup : (items.map key).Nodup) (hitem : item ∈ items)
    (htarget : item.target = .fixed a) : spotOf lead items item.key = some (.address a) := by
  obtain ⟨before, after, rfl⟩ := append_of_mem hitem
  have hlast : item.key ∉ after.map key := by
    rw [map_append] at hnodup
    exact (nodup_cons.1 (nodup_append.1 hnodup).2.1).1
  rw [spotOf_of_split rfl hlast, htarget]
  rfl

section

variable {ε : Type} {asItem : ε → List UInt8 → Item κ} {es : List ε} {texts : List (List UInt8)}

omit [DecidableEq κ] in
theorem map_key_zipWith {keyOf : ε → κ} (hkey : ∀ e bytes, (asItem e bytes).key = keyOf e)
    (hlength : es.length = texts.length) :
    (List.zipWith asItem es texts).map key = es.map keyOf := by
  rw [← map_uncurry_zip_eq_zipWith, map_map]
  conv_rhs => rw [← map_fst_zip (Nat.le_of_eq hlength), map_map]
  exact map_congr_left fun _ _ => hkey ..

omit [DecidableEq κ] in
theorem exists_mem_zipWith {e : ε} (he : e ∈ es) (hlength : es.length = texts.length) :
    ∃ bytes, asItem e bytes ∈ List.zipWith asItem es texts := by
  obtain ⟨i, hi, rfl⟩ := getElem_of_mem he
  have hi' : i < texts.length := hlength ▸ hi
  have hboth : i < (List.zipWith asItem es texts).length := by
    rw [length_zipWith]
    omega
  exact ⟨texts[i], mem_iff_getElem.2 ⟨i, hboth, getElem_zipWith⟩⟩

omit [DecidableEq κ] in
theorem stored_zipWith (hbytes : ∀ e bytes, (asItem e bytes).bytes = bytes)
    (hlength : es.length = texts.length) :
    stored (List.zipWith asItem es texts) = texts.flatten := by
  rw [stored, flatMap_def, ← map_uncurry_zip_eq_zipWith, map_map]
  conv_rhs => rw [← map_snd_zip (Nat.le_of_eq hlength.symm)]
  exact congrArg _ (map_congr_left fun _ _ => hbytes ..)

end

theorem exists_offset_of_spotOf (hfixed : ∀ item ∈ items, ∀ a, item.target ≠ .fixed a)
    (h : spotOf lead items k = some s) : ∃ n, s = .offset n := by
  induction items using List.reverseRecOn generalizing k with
  | nil => cases h
  | append_singleton items last ih =>
    have hitems : ∀ item ∈ items, ∀ a, item.target ≠ .fixed a := fun item hitem =>
      hfixed item (mem_append_left _ hitem)
    by_cases hk : k = last.key
    · rw [hk, spotOf_concat_self] at h
      cases htarget : last.target with
      | own =>
        rw [htarget] at h
        exact ⟨_, (Option.some.inj h).symm⟩
      | shared other =>
        rw [htarget] at h
        exact ih hitems h
      | fixed a =>
        exact absurd htarget (hfixed last (mem_append_right _ mem_cons_self) a)
    · rw [spotOf_concat_of_ne hk] at h
      exact ih hitems h

end Item

/-- A table of offsets that records items stored after `lead` bytes. -/
structure Recorded {κ β : Type} [DecidableEq κ] (number : β → Int) (lead : Nat)
    (items : List (Item κ)) (offsets : Table κ β) : Prop where
  find : ∀ k, (offsets.find? k).map number = (Item.spotOf lead items k).map Spot.value
  keys : (items.map Item.key).Nodup → offsets.keys = items.map Item.key

namespace Recorded

variable {κ β : Type} [DecidableEq κ] {number : β → Int} {lead : Nat} {items : List (Item κ)}
  {offsets : Table κ β} {item : Item κ} {k : κ} {v : β}

theorem nil : Recorded number lead ([] : List (Item κ)) ∅ := ⟨fun _ => rfl, fun _ => rfl⟩

theorem exists_spot (h : Recorded number lead items offsets) (hfind : offsets.find? k = some v) :
    ∃ s, Item.spotOf lead items k = some s ∧ s.value = number v := by
  have hmap := h.find k
  rw [hfind, Option.map_some, eq_comm, Option.map_eq_some_iff] at hmap
  exact hmap

/-- **One more item.**  The table gets what the item records. -/
theorem concat (h : Recorded number lead items offsets)
    (hspot : (Item.spotAfter lead items item.target).map Spot.value = some (number v)) :
    Recorded number lead (items ++ [item]) (offsets.insert item.key v) := by
  constructor
  · intro k
    by_cases hk : k = item.key
    · rw [hk, Table.find?_insert_self, Item.spotOf_concat_self, hspot]
      rfl
    · rw [Table.find?_insert_of_ne _ hk, Item.spotOf_concat_of_ne hk]
      exact h.find k
  · intro hnodup
    rw [map_append, nodup_append] at hnodup
    obtain ⟨hitems, -, hnew⟩ := hnodup
    have hkeys := h.keys hitems
    have hfresh : item.key ∉ offsets.keys := by
      rw [hkeys]
      exact fun hmem => hnew _ hmem _ (mem_singleton_self _) rfl
    rw [Table.keys_insert_of_notMem hfresh, hkeys, map_append]
    rfl

theorem forall₂_of_spans {γ : Type} {lengths : Table κ γ} {keys : List κ} {f g : Fault}
    {spans : List (β × γ)}
    (h : (keys.mapM fun k => do
      let offset ← demand (offsets.find? k) f
      let length ← demand (lengths.find? k) g
      return (offset, length) : Except Fault _) = .ok spans) :
    List.Forall₂ (fun k s => offsets.find? k = some s.1) keys spans := by
  refine (mapM_ok_iff.1 h).imp fun k s hs => ?_
  simp only [bind_ok_iff, demand_ok_iff, pure_ok_iff] at hs
  obtain ⟨offset, hoffset, length, -, rfl⟩ := hs
  exact hoffset

end Recorded

end Cartridge
