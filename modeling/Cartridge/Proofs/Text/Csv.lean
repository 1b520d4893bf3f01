import Cartridge.Proofs.Text.Lines
import Cartridge.Text.Csv

/-!
# Reading back written records

Records that are written one after another are read back field by field, whatever characters their
fields hold.  On the way through a file every carriage return is taken for a line end, inside fields
too.

Main results: `parse_render` and `parse_unify_render`.
-/

open List

namespace Cartridge.Text.Csv

/-! ### Line ends -/

theorem doubleQuotes_quote (s : List Char) :
    doubleQuotes ('"' :: s) = '"' :: '"' :: doubleQuotes s := rfl

theorem doubleQuotes_cons_of_ne {c : Char} (hc : c ≠ '"') (s : List Char) :
    doubleQuotes (c :: s) = c :: doubleQuotes s := by
  rw [doubleQuotes, flatMap_cons, if_neg hc]
  rfl

theorem unifyNewlines_doubleQuotes (s t : List Char) :
    unifyNewlines (doubleQuotes s ++ '"' :: t) =
      doubleQuotes (unifyNewlines s) ++ '"' :: unifyNewlines t := by
  have hcr : '\r' ≠ '"' := by decide
  have hlf : '\n' ≠ '"' := by decide
  fun_induction unifyNewlines s with
  | case1 => exact unifyNewlines_cons_of_ne (by decide) t
  | case2 rest ih =>
    rw [doubleQuotes_cons_of_ne hcr, doubleQuotes_cons_of_ne hlf, doubleQuotes_cons_of_ne hlf,
      cons_append, cons_append, unifyNewlines, ih, cons_append]
  | case3 rest hrest ih =>
    -- The carriage return stands alone: what follows it starts with no line feed.
    have hnext : ∀ u, doubleQuotes rest ++ '"' :: t ≠ '\n' :: u := by
      cases rest with
      | nil => simp [doubleQuotes]
      | cons d rest =>
        by_cases hd : d = '"'
        · simp [hd, doubleQuotes_quote]
        · have hdlf : d ≠ '\n' := fun h => hrest rest (h ▸ rfl)
          simp [doubleQuotes_cons_of_ne hd, hdlf]
    rw [doubleQuotes_cons_of_ne hcr, doubleQuotes_cons_of_ne hlf, cons_append,
      unifyNewlines.eq_3 _ hnext, ih, cons_append]
  | case4 c rest hc hc' ih =>
    by_cases hquote : c = '"'
    · subst hquote
      rw [doubleQuotes_quote, cons_append, cons_append,
        unifyNewlines_cons_of_ne (by decide), unifyNewlines_cons_of_ne (by decide), ih]
      rfl
    · rw [doubleQuotes_cons_of_ne hquote, doubleQuotes_cons_of_ne hquote, cons_append,
        unifyNewlines_cons_of_ne (fun h => hc' h), ih]
      rfl

theorem needsQuotes_unifyNewlines (s : List Char) :
    needsQuotes (unifyNewlines s) = needsQuotes s := by
  fun_induction unifyNewlines s with
  | case1 => rfl
  | case2 rest ih | case3 rest hrest ih => simp [needsQuotes]
  | case4 c rest hc hc' ih =>
    simp only [needsQuotes, any_cons] at ih ⊢
    rw [ih]

/-- **One field.**  Unifying the line ends of a written field gives the written form of the field
with its line ends unified. -/
theorem unifyNewlines_renderField (s : String) (t : List Char) :
    unifyNewlines ((renderField s).toList ++ t) =
      (renderField (unified s)).toList ++ unifyNewlines t := by
  unfold renderField
  rw [unified, String.toList_ofList, needsQuotes_unifyNewlines]
  by_cases hquotes : needsQuotes s.toList
  · rw [if_pos hquotes, if_pos hquotes, String.toList_ofList, String.toList_ofList,
      cons_append, cons_append, append_assoc]
    exact congrArg _ ((unifyNewlines_doubleQuotes _ _).trans (append_cons ..))
  · have hcr : '\r' ∉ s.toList := fun hmem =>
      hquotes (any_eq_true.2 ⟨_, hmem, by decide⟩)
    rw [if_neg hquotes, if_neg hquotes, unifyNewlines_append_of_notMem hcr,
      unifyNewlines_of_notMem hcr, String.toList_ofList]

def joined (fields : List String) : List Char :=
  (String.intercalate "," (fields.map renderField)).toList

theorem joined_singleton (s : String) : joined [s] = (renderField s).toList := by
  simp [joined]

theorem joined_cons_cons (s t : String) (rest : List String) :
    joined (s :: t :: rest) = (renderField s).toList ++ ',' :: joined (t :: rest) := by
  simp [joined, String.toList_intercalate, List.intercalate]

theorem toList_render {fields : List String} (h : fields ≠ [""]) :
    (render fields).toList = joined fields ++ ['\n'] := by
  unfold render
  split
  · exact absurd rfl h
  · rw [String.toList_append]
    rfl

theorem unifyNewlines_joined (fields : List String) (t : List Char) :
    unifyNewlines (joined fields ++ '\n' :: t) =
      joined (fields.map unified) ++ '\n' :: unifyNewlines t := by
  induction fields with
  | nil => exact unifyNewlines_cons_of_ne (by decide) t
  | cons s fields ih =>
    cases fields with
    | nil =>
      rw [map_singleton, joined_singleton, joined_singleton, unifyNewlines_renderField,
        unifyNewlines_cons_of_ne (by decide)]
    | cons s' rest =>
      rw [map_cons, map_cons, joined_cons_cons, joined_cons_cons, append_assoc,
        unifyNewlines_renderField, cons_append, unifyNewlines_cons_of_ne (by decide), ih,
        append_assoc]
      rfl

theorem unified_eq_empty_iff {s : String} : unified s = "" ↔ s = "" := by
  constructor
  · intro h
    have hnil : unifyNewlines s.toList = [] := String.ofList_eq_empty_iff.1 h
    rw [← String.toList_eq_nil_iff]
    unfold unifyNewlines at hnil
    split at hnil
    · assumption
    all_goals cases hnil
  · rintro rfl
    rfl

theorem unifyNewlines_render (fields : List String) (t : List Char) :
    unifyNewlines ((render fields).toList ++ t) =
      (render (fields.map unified)).toList ++ unifyNewlines t := by
  by_cases hempty : fields = [""]
  · subst hempty
    rfl
  · have hempty' : fields.map unified ≠ [""] := by
      intro h
      obtain ⟨s, rfl, hs⟩ := map_eq_singleton_iff.1 h
      exact hempty (congrArg (fun s => [s]) (unified_eq_empty_iff.1 hs))
    rw [toList_render hempty, toList_render hempty', append_assoc, append_assoc]
    exact unifyNewlines_joined fields t

theorem unifyNewlines_renders (rows : List (List String)) :
    unifyNewlines (String.join (rows.map render)).toList =
      (String.join ((rows.map (List.map unified)).map render)).toList := by
  induction rows with
  | nil => rfl
  | cons row rows ih =>
    simp only [map_cons, String.toList_join, flatMap_cons] at ih ⊢
    rw [unifyNewlines_render, ih]

/-! ### Reading -/

namespace Reading

variable {mode : Mode} {s chars : List Char} {c : Char} {fields row : List String}
  {records : List (List String)}

theorem foldl_step_doubleQuotes (s chars : List Char) :
    (doubleQuotes s).foldl step ⟨.quoted, chars, fields, records⟩ =
      ⟨.quoted, s.reverse ++ chars, fields, records⟩ := by
  induction s generalizing chars with
  | nil => rfl
  | cons c s ih =>
    rw [reverse_cons, append_assoc, ← ih]
    by_cases hc : c = '"'
    · subst hc
      rfl
    · rw [doubleQuotes_cons_of_ne hc, foldl_cons, step]
      simp only [if_neg hc]
      rfl

theorem outside_of_plain {r : Reading} (h : needsQuotes [c] = false) :
    r.outside c = r.add .plain c := by
  have hc : c ≠ ',' ∧ c ≠ '\n' := by
    constructor <;> rintro rfl <;> exact absurd h (by decide)
  rw [outside, if_neg hc.2, if_neg hc.1]

theorem needsQuotes_cons : needsQuotes (c :: s) = false ↔
    needsQuotes [c] = false ∧ needsQuotes s = false := by
  simp [needsQuotes]

theorem foldl_step_plain (h : needsQuotes s = false) (chars : List Char) :
    s.foldl step ⟨.plain, chars, fields, records⟩ =
      ⟨.plain, s.reverse ++ chars, fields, records⟩ := by
  induction s generalizing chars with
  | nil => rfl
  | cons c s ih =>
    obtain ⟨hc, hs⟩ := needsQuotes_cons.1 h
    rw [reverse_cons, append_assoc, ← ih hs]
    exact congrArg (s.foldl step) (outside_of_plain hc)

/-- **One field.**  Its characters are read and the quotes are closed.  Nothing shows yet that there
is a field if it is empty. -/
theorem foldl_step_renderField (hmode : mode = .record ∨ mode = .field) (s : String)
    (fields : List String) (records : List (List String)) :
    ∃ mode', (renderField s).toList.foldl step ⟨mode, [], fields, records⟩ =
        ⟨mode', s.toList.reverse, fields, records⟩ ∧
      mode' ≠ .quoted ∧ (mode' = .record → mode = .record ∧ s = "") := by
  unfold renderField
  by_cases hquotes : needsQuotes s.toList
  · have hopen : step ⟨mode, [], fields, records⟩ '"' = ⟨.quoted, [], fields, records⟩ := by
      obtain rfl | rfl := hmode <;> rfl
    refine ⟨.closing, ?_, by decide, fun h => by cases h⟩
    rw [if_pos hquotes, String.toList_ofList, cons_append, foldl_cons, hopen,
      foldl_append, foldl_step_doubleQuotes, append_nil]
    rfl
  · rw [Bool.not_eq_true] at hquotes
    rw [hquotes, if_neg Bool.false_ne_true]
    cases hs : s.toList with
    | nil =>
      refine ⟨mode, rfl, ?_, fun h => ⟨h, String.toList_eq_nil_iff.1 hs⟩⟩
      obtain rfl | rfl := hmode <;> decide
    | cons c rest =>
      obtain ⟨hc, hrest⟩ := needsQuotes_cons.1 (hs ▸ hquotes)
      have hne : c ≠ '"' ∧ c ≠ '\n' := by
        constructor <;> rintro rfl <;> exact absurd hc (by decide)
      have hstep : step ⟨mode, [], fields, records⟩ c = ⟨.plain, [c], fields, records⟩ := by
        obtain rfl | rfl := hmode
        · simp [step, hne, outside_of_plain hc, add]
        · simp [step, hne, outside_of_plain hc, add]
      refine ⟨.plain, ?_, by decide, fun h => by cases h⟩
      rw [foldl_cons, hstep, foldl_step_plain hrest, reverse_cons]

theorem step_comma (hmode : mode ≠ .quoted) :
    step ⟨mode, chars, fields, records⟩ ',' =
      ⟨.field, [], String.ofList chars.reverse :: fields, records⟩ := by
  cases mode with
  | quoted => exact absurd rfl hmode
  | record | field | plain | closing => rfl

theorem step_newline (hmode : mode ≠ .quoted) (hstarted : mode ≠ .record) :
    step ⟨mode, chars, fields, records⟩ '\n' =
      ⟨.record, [], [], (String.ofList chars.reverse :: fields).reverse :: records⟩ := by
  cases mode with
  | quoted => exact absurd rfl hmode
  | record => exact absurd rfl hstarted
  | field | plain | closing => rfl

/-- **All fields of a record**, after those that are read already. -/
theorem foldl_step_joined {more : List String} (hmode : mode = .record ∨ mode = .field)
    (hmore : more ≠ []) (hempty : mode = .record → more ≠ [""]) :
    (joined more ++ ['\n']).foldl step ⟨mode, [], fields, records⟩ =
      ⟨.record, [], [], (fields.reverse ++ more) :: records⟩ := by
  induction more generalizing mode fields with
  | nil => exact absurd rfl hmore
  | cons s more ih =>
    obtain ⟨mode', hfield, hquoted, hrecord⟩ := foldl_step_renderField hmode s fields records
    cases more with
    | nil =>
      have hstarted : mode' ≠ .record := by
        intro h
        obtain ⟨hmode, rfl⟩ := hrecord h
        exact hempty hmode rfl
      rw [joined_singleton, foldl_append, hfield, foldl_cons, foldl_nil,
        step_newline hquoted hstarted, reverse_reverse, String.ofList_toList, reverse_cons]
    | cons s' rest =>
      rw [joined_cons_cons, append_assoc, foldl_append, hfield, cons_append,
        foldl_cons, step_comma hquoted, reverse_reverse, String.ofList_toList,
        ih (.inr rfl) (cons_ne_nil s' rest) (fun h => by cases h), reverse_cons,
        append_assoc]
      rfl

theorem foldl_step_render (hrow : row ≠ []) :
    (render row).toList.foldl step ⟨.record, [], [], records⟩ =
      ⟨.record, [], [], row :: records⟩ := by
  by_cases hempty : row = [""]
  · subst hempty
    rfl
  · rw [toList_render hempty, foldl_step_joined (.inl rfl) hrow fun _ => hempty]
    rfl

end Reading

/-- **Records are read back.**  A record has a field at least. -/
theorem parse_render {rows : List (List String)} (hrows : ∀ row ∈ rows, row ≠ []) :
    parse (String.join (rows.map render)).toList = rows := by
  have hrun : ∀ records, (String.join (rows.map render)).toList.foldl Reading.step
      ⟨.record, [], [], records⟩ = ⟨.record, [], [], rows.reverse ++ records⟩ := by
    induction rows with
    | nil => exact fun _ => rfl
    | cons row rows ih =>
      intro records
      obtain ⟨hrow, hrest⟩ := forall_mem_cons.1 hrows
      have ih := ih hrest (row :: records)
      simp only [String.toList_join, map_cons, flatMap_cons, foldl_append] at ih ⊢
      rw [Reading.foldl_step_render hrow, ih, reverse_cons, append_assoc]
      rfl
  rw [parse, hrun, append_nil]
  exact reverse_reverse rows

/-- **Records are read back from a file**, with the line ends in their fields unified. -/
theorem parse_unify_render {rows : List (List String)} (hrows : ∀ row ∈ rows, row ≠ []) :
    parse (unifyNewlines (String.join (rows.map render)).toList) = rows.map (List.map unified) := by
  rw [unifyNewlines_renders, parse_render]
  intro row hrow
  obtain ⟨row, hmem, rfl⟩ := mem_map.1 hrow
  exact fun h => hrows row hmem (map_eq_nil_iff.1 h)

end Cartridge.Text.Csv
