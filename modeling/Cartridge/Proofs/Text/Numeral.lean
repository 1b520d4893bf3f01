import Cartridge.Text.Numeral
import Mathlib.Data.List.Basic
import Mathlib.Data.List.TakeWhile

/-!
# Written numerals

What characters a written numeral is made of, and that numerals are read back.

* `forall_mem_write`: a numeral holds digits of its base and perhaps a sign.
* `forall_mem_of_read?`: a numeral that can be read holds digits, marks and white space.
-/

open List

namespace Cartridge.Text

theorem exists_trim (p : Char → Bool) (s : List Char) : ∃ l r, s = l ++ (trim p s ++ r) ∧
    (∀ c ∈ l, p c = true) ∧ ∀ c ∈ r, p c = true := by
  refine ⟨s.takeWhile p, ((trimLeft p s).reverse.takeWhile p).reverse, ?_, ?_, ?_⟩
  · have hright : trim p s ++ ((trimLeft p s).reverse.takeWhile p).reverse = trimLeft p s := by
      rw [trim, trimRight, ← reverse_append, takeWhile_append_dropWhile, reverse_reverse]
    rw [hright, trimLeft, takeWhile_append_dropWhile]
  · intro c hc
    exact mem_takeWhile_imp hc
  · intro c hc
    exact mem_takeWhile_imp (mem_reverse.1 hc)

namespace Numeral

variable {p : Char → Prop} {base m n width : Nat} {c : Char} {ds : List Nat} {s l r : List Char}

/-! ### Digits -/

theorem ofDigits_append (base : Nat) (ds : List Nat) (d : Nat) :
    ofDigits base (ds ++ [d]) = ofDigits base ds * base + d := by
  rw [ofDigits, foldl_append]
  rfl

theorem ofDigits_replicate_append (base k : Nat) (ds : List Nat) :
    ofDigits base (List.replicate k 0 ++ ds) = ofDigits base ds := by
  induction k with
  | zero => rfl
  | succ k ih =>
    rw [← ih, replicate_succ]
    simp [ofDigits]

theorem exists_digitsOf (hbase : 1 < base) (n : Nat) :
    ∃ ds : List Nat, digitsOf base n = ds.map Nat.digitChar ∧ ds ≠ [] ∧ (∀ d ∈ ds, d < base) ∧
      ofDigits base ds = n := by
  induction n using Nat.strongRecOn with
  | ind n ih =>
    rw [digitsOf, Nat.toDigits_eq_if hbase]
    split
    · rename_i hn
      exact ⟨[n], rfl, cons_ne_nil _ _, by simpa using hn, by simp [ofDigits]⟩
    · obtain ⟨ds, hmap, -, hlt, hvalue⟩ := ih (n / base) (Nat.div_lt_self (by omega) hbase)
      refine ⟨ds ++ [n % base], ?_, by simp, ?_, ?_⟩
      · rw [map_append, ← hmap]
        rfl
      · intro d hd
        obtain hd | hd := mem_append.1 hd
        · exact hlt d hd
        · rw [mem_singleton.1 hd]
          exact Nat.mod_lt _ (by omega)
      · rw [ofDigits_append, hvalue, Nat.div_add_mod']

theorem forall_mem_digitsOf (hbase : 1 < base) (hdigit : ∀ d < base, p d.digitChar) (n : Nat) :
    ∀ c ∈ digitsOf base n, p c := by
  obtain ⟨ds, hmap, -, hlt, -⟩ := exists_digitsOf hbase n
  rw [hmap]
  exact forall_mem_map.2 fun d hd => hdigit d (hlt d hd)

theorem exists_toList_write (hbase : 1 < base) (width n : Nat) :
    ∃ ds : List Nat, (write base width n).toList = ds.map Nat.digitChar ∧ ds ≠ [] ∧
      (∀ d ∈ ds, d < base) ∧ ofDigits base ds = n := by
  obtain ⟨ds, hmap, hne, hlt, hvalue⟩ := exists_digitsOf hbase n
  refine ⟨List.replicate (width - ds.length) 0 ++ ds, ?_, by simp [hne], ?_, ?_⟩
  · have hpos : ¬((n : Int) < 0) := by omega
    simp only [write, if_neg hpos, String.toList_ofList, nil_append, length_nil, Nat.sub_zero,
      Int.natAbs_natCast, hmap, length_map, map_append, map_replicate]
    rfl
  · intro d hd
    obtain hd | hd := mem_append.1 hd
    · rw [(mem_replicate.1 hd).2]
      omega
    · exact hlt d hd
  · rw [ofDigits_replicate_append, hvalue]

theorem forall_mem_write (hbase : 1 < base) (hdigit : ∀ d < base, p d.digitChar) (width n : Nat) :
    ∀ c ∈ (write base width n).toList, p c := by
  obtain ⟨ds, hmap, -, hlt, -⟩ := exists_toList_write hbase width n
  rw [hmap]
  exact forall_mem_map.2 fun d hd => hdigit d (hlt d hd)

theorem forall_mem_toString (hdigit : ∀ d < 10, p d.digitChar) (n : Nat) :
    ∀ c ∈ (toString n).toList, p c := by
  have hchars : (toString n).toList = digitsOf 10 n := String.toList_ofList
  rw [hchars]
  exact forall_mem_digitsOf (by omega) hdigit n

theorem write_ne_empty (base width : Nat) (n : Int) : write base width n ≠ "" := by
  simp [write, digitsOf, String.ofList_eq_empty_iff, Nat.toDigits_ne_nil]

theorem markedHex_ne_empty (n : Int) : markedHex n ≠ "" := by
  unfold markedHex
  split <;> simp

theorem forall_mem_markedHex (hdigit : ∀ d < 16, p d.digitChar) (hmark : p 'x') (n : Nat) :
    ∀ c ∈ (markedHex n).toList, p c := by
  intro c hc
  have hpos : ¬((n : Int) < 0) := by omega
  simp only [markedHex, if_neg hpos, String.toList_append, String.toList_ofList, mem_append] at hc
  obtain hc | hc := hc
  · obtain rfl | rfl : c = '0' ∨ c = 'x' := by simpa using hc
    · exact hdigit 0 (by omega)
    · exact hmark
  · exact forall_mem_digitsOf (by omega) hdigit _ c hc

theorem forall_mem_upperHex (hdigit : ∀ d < 16, p d.digitChar.toUpper) (width n : Nat) :
    ∀ c ∈ (upperHex width n).toList, p c := by
  intro c hc
  rw [upperHex, String.toList_map, mem_map] at hc
  obtain ⟨d, hd, rfl⟩ := hc
  exact forall_mem_write (p := fun c => p c.toUpper) (by omega) hdigit width n d hd

theorem notMem_upperHex (hc : ∀ d < 16, d.digitChar.toUpper ≠ c) (width n : Nat) :
    c ∉ (upperHex width n).toList := fun hmem =>
  forall_mem_upperHex (p := (· ≠ c)) hc width n c hmem rfl

/-! ### Reading back -/

def hexDigit (upper : Bool) (d : Nat) : Char :=
  if upper then d.digitChar.toUpper else d.digitChar

theorem digitValue?_hexDigit : ∀ (upper : Bool) (d : Nat), d < 16 →
    digitValue? (hexDigit upper d) = some d := by
  decide

theorem hexDigit_plain : ∀ (upper : Bool) (d : Nat), d < 16 →
    isBlank (hexDigit upper d) = false ∧ hexDigit upper d ∉ ['-', '+', '_', 'x', 'X'] := by
  decide

theorem digits?_hexDigits (upper : Bool) (hne : ds ≠ []) (hds : ∀ d ∈ ds, d < 16) :
    digits? 16 (ds.map (hexDigit upper)) = some ds := by
  induction ds with
  | nil => exact absurd rfl hne
  | cons d ds ih =>
    obtain ⟨hd, hrest⟩ := forall_mem_cons.1 hds
    have hvalue : (digitValue? (hexDigit upper d)).filter (· < 16) = some d := by
      rw [digitValue?_hexDigit upper d hd]
      simp [hd]
    cases ds with
    | nil => rw [map_singleton, digits?, hvalue, Option.map_some]
    | cons d' ds =>
      have hd' := hexDigit_plain upper d' (hrest d' mem_cons_self)
      rw [map_cons, map_cons, digits?, hvalue, ← map_cons, ih (cons_ne_nil d' ds) hrest]
      · rfl
      · intro h
        cases h
      · intro rest h
        rw [(List.cons.inj h).1] at hd'
        exact absurd hd'.2 (by decide)

theorem trim_eq_self {p : Char → Bool} (h : ∀ c ∈ s, p c = false) : trim p s = s := by
  have hdrop : ∀ t : List Char, (∀ c ∈ t, p c = false) → t.dropWhile p = t := by
    intro t ht
    cases t with
    | nil => rfl
    | cons c t => rw [dropWhile_cons_of_neg (by simp [ht c mem_cons_self])]
  rw [trim, trimRight, trimLeft, hdrop s h, hdrop s.reverse fun c hc => h c (mem_reverse.1 hc),
    reverse_reverse]

/-- What stands around a text is taken off, and nothing else. -/
theorem trim_append {p : Char → Bool} (hl : ∀ c ∈ l, p c = true) (hs : ∀ c ∈ s, p c = false)
    (hr : ∀ c ∈ r, p c = true) : trim p (l ++ (s ++ r)) = s := by
  rw [trim, trimLeft, dropWhile_append_of_pos hl]
  cases s with
  | nil =>
    rw [nil_append, dropWhile_eq_nil_iff.2 hr]
    rfl
  | cons c s =>
    have hc : ¬p c = true := by
      rw [hs c mem_cons_self]
      exact Bool.false_ne_true
    have hr' : ∀ c ∈ r.reverse, p c = true := fun c hc => hr c (mem_reverse.1 hc)
    have hself := trim_eq_self hs
    rw [trim, trimLeft, dropWhile_cons_of_neg hc] at hself
    rw [cons_append, dropWhile_cons_of_neg hc, ← cons_append, trimRight,
      reverse_append, dropWhile_append_of_pos hr']
    exact hself

theorem marginOf_eq_false (hc : isBlank c = false) : marginOf s c = false := by
  unfold marginOf
  split
  · simp [hc]
  · exact hc

theorem dropMark_eq_self (h : ∀ c ∈ s, c ∉ ['x', 'X']) : dropMark 16 s = s := by
  unfold dropMark
  split
  · rename_i mark x rest hmark
    obtain rfl : 'x' = mark := Option.some.inj hmark
    rw [if_neg]
    intro hx
    refine h x (by simp) ?_
    simpa using hx
  · rfl

theorem read?_hexDigits (upper : Bool) (hne : ds ≠ []) (hds : ∀ d ∈ ds, d < 16) :
    read? 16 (ds.map (hexDigit upper)) = some (ofDigits 16 ds : Int) := by
  have hplain : ∀ c ∈ ds.map (hexDigit upper),
      isBlank c = false ∧ c ∉ ['-', '+', '_', 'x', 'X'] := by
    intro c hc
    obtain ⟨d, hd, rfl⟩ := mem_map.1 hc
    exact hexDigit_plain upper d (hds d hd)
  have hdigits := digits?_hexDigits upper hne hds
  generalize ds.map (hexDigit upper) = s at hplain hdigits
  have htrim : trim (marginOf s) s = s :=
    trim_eq_self fun c hc => marginOf_eq_false (hplain c hc).1
  have hmark : dropMark 16 s = s :=
    dropMark_eq_self fun c hc h => (hplain c hc).2 (mem_append_right ['-', '+', '_'] h)
  unfold read?
  rw [htrim]
  dsimp only
  split
  · exact absurd (hplain '-' mem_cons_self).2 (by decide)
  · exact absurd (hplain '+' mem_cons_self).2 (by decide)
  · rw [hmark, hdigits]
    rfl

/-! ### Characters of what is read -/

theorem forall_mem_of_digits? (hdigit : ∀ c d, digitValue? c = some d → p c) (hunderscore : p '_')
    (h : digits? base s = some ds) : ∀ c ∈ s, p c := by
  have hfirst : ∀ {c : Char} {d : Nat}, (digitValue? c).filter (· < base) = some d → p c := by
    intro c d hc
    exact hdigit c d (Option.eq_some_of_filter_eq_some hc)
  fun_induction digits? base s generalizing ds with
  | case1 => cases h
  | case2 c =>
    rw [Option.map_eq_some_iff] at h
    obtain ⟨d, hd, -⟩ := h
    intro x hx
    rw [mem_singleton.1 hx]
    exact hfirst hd
  | case3 c rest ih =>
    simp only [Option.bind_eq_bind, Option.bind_eq_some_iff] at h
    obtain ⟨d, hd, others, hothers, -⟩ := h
    exact forall_mem_cons.2 ⟨hfirst hd, forall_mem_cons.2 ⟨hunderscore, ih hothers⟩⟩
  | case4 c rest hne hrest ih =>
    simp only [Option.bind_eq_bind, Option.bind_eq_some_iff] at h
    obtain ⟨d, hd, others, hothers, -⟩ := h
    exact forall_mem_cons.2 ⟨hfirst hd, ih hothers⟩

theorem forall_mem_of_dropMark (hmarks : ∀ c ∈ ['_', '0', 'x', 'X'], p c)
    (h : ∀ c ∈ dropMark 16 s, p c) : ∀ c ∈ s, p c := by
  unfold dropMark at h
  split at h
  · rename_i mark x rest hmark
    obtain rfl : 'x' = mark := Option.some.inj hmark
    by_cases hx : x = 'x' ∨ x = Char.toUpper 'x'
    · rw [if_pos hx] at h
      have hfirst : p x := by
        obtain rfl | rfl := hx
        · exact hmarks _ (by decide)
        · exact hmarks _ (by decide)
      refine forall_mem_cons.2 ⟨hmarks _ (by decide), forall_mem_cons.2 ⟨hfirst, ?_⟩⟩
      split at h
      · exact forall_mem_cons.2 ⟨hmarks _ (by decide), h⟩
      · exact h
    · rwa [if_neg hx] at h
  · exact h

theorem forall_mem_of_read? {n : Int} (hdigit : ∀ c d, digitValue? c = some d → p c)
    (hblank : ∀ c, isBlank c = true → p c) (hmarks : p '_' ∧ p '-' ∧ p '+')
    (h : read? 16 s = some n) : ∀ c ∈ s, p c := by
  have hmargin : ∀ c, marginOf s c = true → p c := by
    intro c hc
    unfold marginOf at hc
    split at hc
    · exact hblank c (Bool.and_eq_true _ _ ▸ hc).1
    · exact hblank c hc
  have hdropped : ∀ r ds, digits? 16 (dropMark 16 r) = some ds → ∀ c ∈ r, p c := by
    intro r ds hds
    refine forall_mem_of_dropMark ?_ (forall_mem_of_digits? hdigit hmarks.1 hds)
    intro c hc
    simp only [mem_cons, not_mem_nil, or_false] at hc
    obtain rfl | rfl | rfl | rfl := hc
    · exact hmarks.1
    · exact hdigit '0' 0 (by decide)
    · exact hdigit 'x' 33 (by decide)
    · exact hdigit 'X' 33 (by decide)
  obtain ⟨l, r, hsplit, hl, hr⟩ := exists_trim (marginOf s) s
  have htrim : ∀ c ∈ trim (marginOf s) s, p c := by
    unfold read? at h
    generalize trim (marginOf s) s = inner at h
    simp only [Option.bind_eq_bind, Option.bind_eq_some_iff] at h
    obtain ⟨ds, hds, -⟩ := h
    split at hds
    · exact forall_mem_cons.2 ⟨hmarks.2.1, hdropped _ ds hds⟩
    · exact forall_mem_cons.2 ⟨hmarks.2.2, hdropped _ ds hds⟩
    · exact hdropped _ ds hds
  intro c hc
  rw [hsplit, mem_append, mem_append] at hc
  obtain hc | hc | hc := hc
  · exact hmargin c (hl c hc)
  · exact htrim c hc
  · exact hmargin c (hr c hc)

theorem write_inj (hbase : 1 < base) (hbase' : base ≤ 16)
    (h : write base width m = write base width n) : m = n := by
  have hback : ∀ ds : List Nat, (∀ d ∈ ds, d < base) →
      (ds.map Nat.digitChar).filterMap digitValue? = ds := by
    intro ds hds
    rw [filterMap_map]
    refine (filterMap_congr fun d hd => ?_).trans filterMap_some
    exact digitValue?_hexDigit false d ((hds d hd).trans_le hbase')
  obtain ⟨ds, hmap, -, hlt, rfl⟩ := exists_toList_write hbase width m
  obtain ⟨ds', hmap', -, hlt', rfl⟩ := exists_toList_write hbase width n
  rw [← hback ds hlt, ← hmap, h, hmap', hback ds' hlt']

theorem read?_upperHex (width n : Nat) : read? 16 (upperHex width n).toList = some (n : Int) := by
  obtain ⟨ds, hmap, hne, hlt, hvalue⟩ := exists_toList_write (by omega : 1 < 16) width n
  have hchars : (upperHex width n).toList = ds.map (hexDigit true) := by
    rw [upperHex, String.toList_map, hmap, map_map]
    rfl
  rw [hchars, read?_hexDigits true hne hlt, hvalue]

theorem upperHex_inj (h : upperHex width m = upperHex width n) : m = n := by
  have hread := read?_upperHex width m
  rw [h, read?_upperHex] at hread
  exact (Int.ofNat_inj.1 (Option.some.inj hread)).symm

theorem digitsOf_four (hn : 0x1000 ≤ n) (hn' : n < 0x10000) :
    digitsOf 16 n = [n / 0x1000, n / 0x100 % 16, n / 16 % 16, n % 16].map (hexDigit false) := by
  have h16 : 1 < 16 := by omega
  have hhigh : n / 16 / 16 = n / 0x100 := Nat.div_div_eq_div_mul ..
  have htop : n / 0x100 / 16 = n / 0x1000 := Nat.div_div_eq_div_mul ..
  rw [digitsOf, Nat.toDigits_of_base_le h16 (by omega), Nat.toDigits_of_base_le h16 (by omega),
    hhigh, Nat.toDigits_of_base_le h16 (by omega), htop, Nat.toDigits_of_lt_base (by omega)]
  rfl

end Numeral

end Cartridge.Text
