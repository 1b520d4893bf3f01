import Cartridge.Proofs.Dialog.Shapes
import Cartridge.Proofs.Text.Escape
import Cartridge.Dialog.Dump

/-!
# Lists of names and of characters

The lists that dialog is dumped with are read again when it is built.

* `mem_of_parseNames`: what the names of a list hold stands in the list.
-/

open List

namespace Cartridge.Dialog

open Charset Text.Numeral Job Text
open Text (literalMarks)

variable {line more text : List Char} {ns : Names} {name : String}

/-! ### Lines of names -/

/-- A line with an equals sign, behind which nothing means anything in a literal. -/
def IsEntry (line : List Char) : Prop :=
  ∃ key value, line.filter (· != '\n') = key ++ '=' :: value ∧ '=' ∉ key ∧
    ∀ c ∈ value, c ∉ literalMarks

theorem IsEntry.exists_textOf (h : IsEntry line) : ∃ s, textOf line = .ok s := by
  obtain ⟨key, value, hline, hkey, hvalue⟩ := h
  refine ⟨String.ofList value, ?_⟩
  simp only [textOf, hline, splitFirst_append hkey, bind_ok_iff, demand_ok_iff, pure_ok_iff]
  exact ⟨value, rfl, value, readQuoted_of_plain hvalue, rfl⟩

theorem IsEntry.append (h : IsEntry line) (hmore : ∀ c ∈ more, c ∉ literalMarks) :
    IsEntry (line ++ more) := by
  obtain ⟨key, value, hline, hkey, hvalue⟩ := h
  refine ⟨key, value ++ more.filter (· != '\n'), ?_, hkey, fun c hc => ?_⟩
  · rw [filter_append, hline, append_assoc, cons_append]
  · obtain hc | hc := mem_append.1 hc
    · exact hvalue c hc
    · exact hmore c (mem_of_mem_filter hc)

theorem notMem_literalMarks_of_blank (c : Char) (h : isBlank c = true) : c ∉ literalMarks := by
  intro hmem
  simp only [literalMarks, mem_cons, not_mem_nil, or_false] at hmem
  obtain rfl | rfl | rfl := hmem
  · revert h
    decide
  · revert h
    decide
  · revert h
    decide

theorem notMem_literalMarks_of_digit (c : Char) (d : Nat) (h : digitValue? c = some d) :
    c ∉ literalMarks := by
  intro hmem
  simp only [literalMarks, mem_cons, not_mem_nil, or_false] at hmem
  obtain rfl | rfl | rfl := hmem
  · revert h
    decide +revert
  · revert h
    decide +revert
  · revert h
    decide +revert

theorem exists_of_nameLine {e : Int × String} (h : nameLine line = .ok e) :
    ∃ l address r, line = l ++ (e.2.toList ++ '=' :: address ++ r) ∧ '=' ∉ e.2.toList ∧
      (∀ c ∈ l, isBlank c = true) ∧ (∀ c ∈ r, isBlank c = true) ∧
      read? 16 address = some e.1 := by
  unfold nameLine at h
  split at h
  · rename_i name address hparts
    simp only [bind_ok_iff, demand_ok_iff, pure_ok_iff] at h
    obtain ⟨n, hn, rfl⟩ := h
    obtain ⟨t, htrim, hname, ht⟩ := exists_of_splitOn hparts (by simp)
    obtain rfl := eq_of_splitOn_singleton ht
    obtain ⟨l, r, hline, hl, hr⟩ := exists_trim isBlank line
    rw [htrim] at hline
    refine ⟨l, t, r, ?_, ?_, hl, hr, hn⟩
    · rw [String.toList_ofList]
      exact hline
    · rw [String.toList_ofList]
      exact hname
  · cases h

theorem isEntry_of_nameLine {e : Int × String} (h : nameLine line = .ok e) : IsEntry line := by
  obtain ⟨l, address, r, rfl, hname, hl, hr, hread⟩ := exists_of_nameLine h
  have haddress : ∀ c ∈ address, c ∉ literalMarks :=
    forall_mem_of_read? notMem_literalMarks_of_digit notMem_literalMarks_of_blank (by decide) hread
  refine ⟨(l ++ e.2.toList).filter (· != '\n'), (address ++ r).filter (· != '\n'), ?_, ?_, ?_⟩
  · simp [filter_append]
  · intro hmem
    obtain hmem | hmem := mem_append.1 (mem_of_mem_filter hmem)
    · exact absurd (hl _ hmem) (by decide)
    · exact hname hmem
  · intro c hc
    obtain hc | hc := mem_append.1 (mem_of_mem_filter hc)
    · exact haddress c hc
    · exact notMem_literalMarks_of_blank c (hr c hc)

/-! ### Names that are added -/

def addedLine (e : String × Nat) : List Char :=
  e.1.toList ++ '=' :: ((markedHex e.2).toList ++ ['\n'])

theorem toList_nameText (added : List (String × Nat)) :
    (nameText added).toList = added.flatMap addedLine := by
  induction added with
  | nil => rfl
  | cons e added ih =>
    have hrest : (String.join (added.map fun e =>
        e.1 ++ "=" ++ markedHex e.2 ++ "\n")).toList = added.flatMap addedLine := ih
    rw [nameText, map_cons, String.join_cons, String.toList_append, hrest]
    simp [addedLine, String.toList_append]

variable {e : String × Nat} {added : List (String × Nat)}

section

variable (hname : ∃ n, e.1 = madeUpName n)

include hname

theorem forall_mem_addedLine {p : Char → Prop} (hletters : p 'B' ∧ p 'U' ∧ p 'F')
    (hdigits : ∀ d < 16, p d.digitChar.toUpper) (hdigits' : ∀ d < 16, p d.digitChar)
    (hmarks : p '=' ∧ p 'x' ∧ p '\n') : ∀ c ∈ addedLine e, p c := by
  obtain ⟨n, hn⟩ := hname
  intro c hc
  simp only [addedLine, mem_append, mem_cons, not_mem_nil, or_false] at hc
  obtain hc | rfl | hc | rfl := hc
  · rw [hn] at hc
    exact forall_mem_madeUpName hletters hdigits n c hc
  · exact hmarks.1
  · exact forall_mem_markedHex hdigits' hmarks.2.1 e.2 c hc
  · exact hmarks.2.2

theorem plain_addedLine : ∀ c ∈ addedLine e, c ∉ literalMarks :=
  forall_mem_addedLine hname (by decide) (by decide) (by decide) (by decide)

theorem lines_addedLine : lines (addedLine e) = [addedLine e] := by
  have hbody : addedLine e = (e.1.toList ++ '=' :: (markedHex e.2).toList) ++ ['\n'] := by
    simp [addedLine]
  rw [hbody]
  refine lines_append_newline (fun hmem => ?_) []
  obtain ⟨n, hn⟩ := hname
  rw [mem_append, mem_cons] at hmem
  obtain hmem | hmem | hmem := hmem
  · rw [hn] at hmem
    exact forall_mem_madeUpName (p := (· ≠ '\n')) (by decide) (by decide) n _ hmem rfl
  · cases hmem
  · exact forall_mem_markedHex (p := (· ≠ '\n')) (by decide) (by decide) e.2 _ hmem rfl

theorem isEntry_addedLine : IsEntry (addedLine e) := by
  refine ⟨e.1.toList.filter (· != '\n'),
    ((markedHex e.2).toList ++ ['\n']).filter (· != '\n'), ?_, ?_, ?_⟩
  · simp [addedLine, filter_append]
  · intro hmem
    obtain ⟨n, hn⟩ := hname
    rw [hn] at hmem
    exact forall_mem_madeUpName (p := (· ≠ '=')) (by decide) (by decide) n _
      (mem_of_mem_filter hmem) rfl
  · intro c hc
    refine plain_addedLine hname c ?_
    exact mem_append_right _ (mem_cons_of_mem _ (mem_of_mem_filter hc))

end

/-- **Adding names** to a list, also to one whose last line does not end, leaves it readable. -/
theorem isEntry_append_nameText (hadded : ∀ e ∈ added, ∃ n, e.1 = madeUpName n)
    (h : ∀ l ∈ lines text, IsEntry l) :
    ∀ l ∈ lines (text ++ (nameText added).toList), IsEntry l := by
  rw [toList_nameText]
  induction added generalizing text with
  | nil => simpa using h
  | cons e added ih =>
    obtain ⟨he, hothers⟩ := forall_mem_cons.1 hadded
    rw [flatMap_cons, ← append_assoc]
    refine ih hothers fun l hl => ?_
    obtain hlines | ⟨front, last, hfront, hlines⟩ :=
      lines_append_line (lines_addedLine he) text
    · rw [hlines, mem_append, mem_singleton] at hl
      obtain hl | rfl := hl
      · exact h l hl
      · exact isEntry_addedLine he
    · rw [hlines, mem_append, mem_singleton] at hl
      rw [hfront] at h
      obtain hl | rfl := hl
      · exact h l (mem_append_left _ hl)
      · exact (h last (mem_append_right _ (mem_singleton_self _))).append (plain_addedLine he)

/-- **A list of names is read again**, with texts, after names were added. -/
theorem exists_parse_append (hnames : parseNames text = .ok ns)
    (hadded : ∀ e ∈ added, ∃ n, e.1 = madeUpName n) :
    ∃ pointers, parse nameOf (text ++ (nameText added).toList) = .ok pointers := by
  simp only [parseNames, bind_ok_iff] at hnames
  obtain ⟨entries, hentries, -⟩ := hnames
  have hlines : ∀ l ∈ lines text, IsEntry l := by
    intro l hl
    obtain ⟨e, -, he⟩ := exists_mem_of_mapM hentries hl
    exact isEntry_of_nameLine he
  have hall := isEntry_append_nameText hadded hlines
  have hparsed : ∀ l ∈ entryLines (text ++ (nameText added).toList), ∃ e : String × String,
      (do
        let k ← nameOf l
        let t ← textOf l
        return (k, t)) = Except.ok e := by
    intro l hl
    obtain ⟨s, hs⟩ := (hall l (mem_of_mem_filter hl)).exists_textOf
    refine ⟨(String.ofList (keyOf l), s), ?_⟩
    simp only [bind_ok_iff, pure_ok_iff]
    exact ⟨_, rfl, s, hs, rfl⟩
  obtain ⟨pairs, hpairs⟩ := exists_mapM_eq_ok hparsed
  exact ⟨_, map_ok_iff.2 ⟨pairs, hpairs, rfl⟩⟩

theorem mem_of_parseNames (hnames : parseNames text = .ok ns) {a : Int}
    (hname : ns.known.find? a = some name) {c : Char} (hc : c ∈ name.toList) : c ∈ text := by
  simp only [parseNames, bind_ok_iff, pure_ok_iff] at hnames
  obtain ⟨entries, hentries, rfl⟩ := hnames
  obtain ⟨line, hline, he⟩ := exists_of_mem_mapM hentries (Table.mem_of_find?_ofList hname)
  obtain ⟨l, address, r, rfl, -⟩ := exists_of_nameLine he
  refine mem_of_mem_lines hline ?_
  simp [hc]

/-! ### Characters of tilesets -/

section

variable {w w' : Workspace} {base : Int} {set : Charset}

theorem notMem_of_readText {path : String} (h : (readText path).on w = (.ok text, w')) :
    '\r' ∉ text := by
  obtain ⟨s, -, rfl, -⟩ := on_readText_ok_iff.1 h
  exact notMem_unifyNewlines _

theorem notMem_of_parseList (h : parseList base text = .ok set) (htext : '\r' ∉ text) :
    ∀ e ∈ set.entries, '\r' ∉ e.2.toList := by
  obtain ⟨state, hstate, rfl⟩ := map_ok_iff.1 h
  have hempty : ∀ e ∈ (∅ : Charset).entries, '\r' ∉ e.2.toList := fun e he => nomatch he
  refine foldlM_invariant (fun state : Int × Charset => ∀ e ∈ state.2.entries, '\r' ∉ e.2.toList)
    (fun line hline before after hbefore hstep => ?_) hempty hstate
  unfold listLine at hstep
  split at hstep
  · cases hstep
    exact hbefore
  · simp only [bind_ok_iff, pure_ok_iff] at hstep
    obtain ⟨_, -, rfl⟩ := hstep
    exact hbefore
  · cases hstep
    intro e he
    obtain rfl | he := Table.mem_insert he
    · rw [String.toList_ofList]
      intro hmem
      refine htext (mem_of_mem_lines hline ?_)
      exact mem_reverse.1 ((dropWhile_sublist _).subset (mem_reverse.1 hmem))
    · exact hbefore e he

theorem notMem_of_ofTilesetAt (h : (ofTilesetAt name base).on w = (.ok set, w')) :
    ∀ e ∈ set.entries, '\r' ∉ e.2.toList := by
  simp only [ofTilesetAt, readList, on_map_ok_iff, on_bind_ok_iff, on_lift, Prod.mk.injEq] at h
  obtain ⟨listed, ⟨text, _, htext, hlisted, -⟩, rfl⟩ := h
  have hall := notMem_of_parseList hlisted (notMem_of_readText htext)
  unfold withSpace
  split
  · exact hall
  · intro e he
    obtain rfl | he := Table.mem_insert he
    · decide
    · exact hall e he

theorem notMem_of_readLetters (h : Lettering.readLetters.on w = (.ok set, w')) :
    ∀ e ∈ set.entries, '\r' ∉ e.2.toList := by
  simp only [Lettering.readLetters, on_bind_ok_iff, on_pure, Prod.mk.injEq, Except.ok.injEq] at h
  obtain ⟨first, _, hfirst, second, _, hsecond, special, _, hspecial, rfl, -⟩ := h
  intro e he
  obtain ⟨part, hpart, hmem⟩ := Table.mem_merge he
  simp only [mem_cons, not_mem_nil, or_false] at hpart
  obtain rfl | rfl | rfl := hpart
  · exact notMem_of_ofTilesetAt hfirst e hmem
  · exact notMem_of_ofTilesetAt hsecond e hmem
  · exact notMem_of_ofTilesetAt hspecial e hmem

end

end Cartridge.Dialog
