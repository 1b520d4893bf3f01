import Cartridge.Table
import Mathlib.Data.List.Induction
import Mathlib.Data.List.Nodup

/-!
# Looking up in tables

What a table holds after keys were given values: the value of a key is the last one that it was
given (`find?_insert_self`, `find?_ofList`), and its keys stand in the order in which they first
came.

A table whose values tell its keys apart can be read the other way round (`find?_swap`).
-/

open List

namespace Cartridge.Table

variable {α β : Type} [BEq α] [LawfulBEq α] {t : Table α β} {k k' : α} {v : β}
  {es pairs : List (α × β)} {e : α × β}

theorem lookup_insertEntry_self (k : α) (v : β) (es : List (α × β)) :
    (insertEntry k v es).lookup k = some v := by
  induction es with
  | nil => exact lookup_cons_self
  | cons e es ih =>
    obtain ⟨k₀, v₀⟩ := e
    by_cases hk : k₀ = k
    · simp [insertEntry, hk]
    · have hbeq : (k == k₀) = false := beq_eq_false_iff_ne.2 (Ne.symm hk)
      simp [insertEntry, lookup_cons, hk, hbeq, ih]

theorem lookup_insertEntry_of_ne (hne : k' ≠ k) (v : β) (es : List (α × β)) :
    (insertEntry k v es).lookup k' = es.lookup k' := by
  have hbeq : (k' == k) = false := beq_eq_false_iff_ne.2 hne
  induction es with
  | nil => simp [insertEntry, lookup_cons, hbeq]
  | cons e es ih =>
    obtain ⟨k₀, v₀⟩ := e
    by_cases hk : k₀ = k
    · simp [insertEntry, lookup_cons, hk, hbeq]
    · simp [insertEntry, lookup_cons, hk, ih]

@[simp] theorem find?_insert_self (t : Table α β) (k : α) (v : β) :
    (t.insert k v).find? k = some v :=
  lookup_insertEntry_self k v t.entries

theorem find?_insert_of_ne (t : Table α β) (hne : k' ≠ k) (v : β) :
    (t.insert k v).find? k' = t.find? k' :=
  lookup_insertEntry_of_ne hne v t.entries

theorem contains_insert_iff (t : Table α β) (k : α) (v : β) (k' : α) :
    (t.insert k v).contains k' ↔ t.contains k' ∨ k' = k := by
  by_cases hk : k' = k
  · simp [contains, hk]
  · simp [contains, find?_insert_of_ne t hk, hk]

theorem find?_modify_self {f : β → β} (h : t.find? k = some v) :
    (t.modify k f).find? k = some (f v) := by
  rw [modify, h]
  exact find?_insert_self t k (f v)

theorem insertEntry_insertEntry (k : α) (v v' : β) (es : List (α × β)) :
    insertEntry k v' (insertEntry k v es) = insertEntry k v' es := by
  induction es with
  | nil => simp [insertEntry]
  | cons e es ih =>
    obtain ⟨k₀, v₀⟩ := e
    by_cases hk : k₀ = k
    · simp [insertEntry, hk]
    · simp [insertEntry, hk, ih]

theorem modify_insert (t : Table α β) (k : α) (v : β) (f : β → β) :
    (t.insert k v).modify k f = t.insert k (f v) := by
  rw [modify, find?_insert_self]
  exact congrArg Table.mk (insertEntry_insertEntry ..)

/-! ### Keys -/

theorem map_fst_insertEntry (h : k ∉ es.map Prod.fst) (v : β) :
    insertEntry k v es = es ++ [(k, v)] := by
  induction es with
  | nil => rfl
  | cons e es ih =>
    rw [map_cons, mem_cons, not_or] at h
    rw [insertEntry, if_neg (by simpa using Ne.symm h.1), ih h.2]
    rfl

theorem keys_insert_of_notMem (h : k ∉ t.keys) (v : β) : (t.insert k v).keys = t.keys ++ [k] := by
  rw [keys, insert, map_fst_insertEntry h, map_append]
  rfl

theorem keys_insertEntry_of_mem (h : k ∈ es.map Prod.fst) (v : β) :
    (insertEntry k v es).map Prod.fst = es.map Prod.fst := by
  induction es with
  | nil => cases h
  | cons e es ih =>
    obtain ⟨k₀, v₀⟩ := e
    by_cases hk : k₀ = k
    · simp [insertEntry, hk]
    · have hrest : k ∈ es.map Prod.fst := (mem_cons.1 h).resolve_left (Ne.symm hk)
      simp [insertEntry, hk, ih hrest]

theorem nodup_keys_insert (hnodup : t.keys.Nodup) (k : α) (v : β) : (t.insert k v).keys.Nodup := by
  by_cases h : k ∈ t.keys
  · rw [keys, insert, keys_insertEntry_of_mem h]
    exact hnodup
  · rw [keys_insert_of_notMem h, nodup_append]
    refine ⟨hnodup, nodup_singleton k, fun a ha b hb => ?_⟩
    rw [mem_singleton.1 hb]
    rintro rfl
    exact h ha

theorem mem_keys_iff : k ∈ t.keys ↔ ∃ v, t.find? k = some v := by
  rw [← Option.isSome_iff_exists, find?, lookup_isSome_iff, keys, mem_map]
  constructor
  · rintro ⟨e, he, rfl⟩
    exact ⟨e, he, beq_self_eq_true _⟩
  · rintro ⟨e, he, hk⟩
    exact ⟨e, he, (eq_of_beq hk).symm⟩

theorem mem_keys_insert_iff : k' ∈ (t.insert k v).keys ↔ k' = k ∨ k' ∈ t.keys := by
  by_cases hk : k' = k
  · subst hk
    simp [mem_keys_iff]
  · simp [mem_keys_iff, find?_insert_of_ne t hk, hk]

theorem mem_insert (h : e ∈ (t.insert k v).entries) : e = (k, v) ∨ e ∈ t.entries := by
  rw [insert] at h
  generalize t.entries = es at h ⊢
  induction es with
  | nil => exact .inl (mem_singleton.1 h)
  | cons first es ih =>
    obtain ⟨k₀, v₀⟩ := first
    by_cases hk : k₀ = k
    · subst hk
      simp only [insertEntry, beq_self_eq_true, if_true, mem_cons] at h
      exact h.imp_right (mem_cons_of_mem _)
    · simp only [insertEntry, beq_eq_false_iff_ne.2 hk, Bool.false_eq_true, if_false, mem_cons] at h
      obtain h | h := h
      · exact .inr (h ▸ mem_cons_self)
      · exact (ih h).imp_right (mem_cons_of_mem _)

theorem mem_merge {ts : List (Table α β)} (h : e ∈ (merge ts).entries) :
    ∃ t ∈ ts, e ∈ t.entries := by
  have hupdate : ∀ {t u : Table α β}, e ∈ (t.update u).entries → e ∈ t.entries ∨ e ∈ u.entries := by
    intro t u he
    rw [update] at he
    generalize u.entries = es at he ⊢
    induction es generalizing t with
    | nil => exact .inl he
    | cons first es ih =>
      obtain he | he := ih he
      · obtain rfl | he := mem_insert he
        · exact .inr mem_cons_self
        · exact .inl he
      · exact .inr (mem_cons_of_mem _ he)
  rw [merge] at h
  induction ts using List.reverseRecOn with
  | nil => cases h
  | append_singleton ts t ih =>
    rw [foldl_concat] at h
    obtain he | he := hupdate h
    · obtain ⟨u, hu, heu⟩ := ih he
      exact ⟨u, mem_append_left _ hu, heu⟩
    · exact ⟨t, mem_append_right _ (mem_singleton_self t), he⟩

theorem find?_eq_some_iff (h : t.keys.Nodup) : t.find? k = some v ↔ (k, v) ∈ t.entries := by
  rw [find?, lookup_eq_some_iff]
  constructor
  · rintro ⟨l₁, l₂, hsplit, -⟩
    rw [hsplit]
    exact mem_append_right _ mem_cons_self
  · intro hmem
    obtain ⟨l₁, l₂, hsplit⟩ := append_of_mem hmem
    refine ⟨l₁, l₂, hsplit, fun e he => ?_⟩
    rw [keys, hsplit, map_append, nodup_append] at h
    exact bne_iff_ne.2 fun hk => h.2.2 e.1 (mem_map_of_mem he) k mem_cons_self hk.symm

/-! ### Tables of pairs -/

theorem find?_ofList (pairs : List (α × β)) (k : α) :
    (ofList pairs).find? k = pairs.reverse.lookup k := by
  induction pairs using List.reverseRecOn with
  | nil => rfl
  | append_singleton pairs e ih =>
    have hfold : ofList (pairs ++ [e]) = (ofList pairs).insert e.1 e.2 := foldl_concat ..
    rw [hfold, reverse_append, reverse_singleton, singleton_append]
    by_cases hk : k = e.1
    · rw [hk, find?_insert_self]
      exact lookup_cons_self.symm
    · rw [find?_insert_of_ne _ hk, ih, lookup_cons, beq_false_of_ne hk]

theorem mem_of_find? (h : t.find? k = some v) : (k, v) ∈ t.entries := by
  obtain ⟨l₁, l₂, hsplit, -⟩ := lookup_eq_some_iff.1 h
  rw [hsplit]
  exact mem_append_right _ mem_cons_self

theorem mem_of_find?_ofList (h : (ofList pairs).find? k = some v) :
    (k, v) ∈ pairs := by
  rw [find?_ofList] at h
  obtain ⟨l₁, l₂, hsplit, -⟩ := lookup_eq_some_iff.1 h
  rw [← mem_reverse, hsplit]
  exact mem_append_right _ mem_cons_self

theorem exists_find?_ofList (h : (k, v) ∈ pairs) :
    ∃ v', (ofList pairs).find? k = some v' ∧ (k, v') ∈ pairs := by
  have hsome : (pairs.reverse.lookup k).isSome := by
    rw [lookup_isSome_iff]
    exact ⟨(k, v), mem_reverse.2 h, beq_self_eq_true k⟩
  obtain ⟨v', hv'⟩ := Option.isSome_iff_exists.1 hsome
  rw [← find?_ofList] at hv'
  exact ⟨v', hv', mem_of_find?_ofList hv'⟩

/-- **A table whose values tell its keys apart is inverted by swapping.** -/
theorem find?_swap [BEq β] [LawfulBEq β]
    (hapart : ∀ e ∈ t.entries, ∀ e' ∈ t.entries, e.2 = e'.2 → e.1 = e'.1)
    (h : t.find? k = some v) : t.swap.find? v = some k := by
  have hmem : (v, k) ∈ t.entries.map fun e => (e.2, e.1) :=
    mem_map.2 ⟨(k, v), mem_of_find? h, rfl⟩
  obtain ⟨k', hfind, hmem'⟩ := exists_find?_ofList hmem
  obtain ⟨e, he, heq⟩ := mem_map.1 hmem'
  obtain ⟨rfl, rfl⟩ := Prod.mk.inj heq
  rw [swap, hfind, hapart e he (k, e.2) (mem_of_find? h) rfl]

omit [BEq α] [LawfulBEq α] in
theorem exists_of_find?_swap [BEq β] [LawfulBEq β] (h : t.swap.find? v = some k) :
    ∃ e ∈ t.entries, e.2 = v := by
  obtain ⟨e, he, heq⟩ := mem_map.1 (mem_of_find?_ofList h)
  exact ⟨e, he, (Prod.mk.inj heq).1⟩

end Cartridge.Table
