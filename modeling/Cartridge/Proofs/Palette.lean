import Cartridge.Palette
import Cartridge.Proofs.Fault
import Cartridge.Proofs.Text.Lines

/-!
# Palettes as text

A colour is written as a line and read from it again (`readLine_colour`), with the end of the line
or without, and the lines of a palette are read one after the other.

Main result: `readLines_text`.
-/

open List

namespace Cartridge.Palette

open Text

variable {r g b n : Nat} {e l : String} {ls : List String} {c : Colour} {cs : List Colour}
  {bytes : List UInt8}

/-! ### One colour -/

def component (n : Nat) : String := Numeral.decimal 2 n

/-- The line of a colour, up to its end. -/
def body (r g b : Nat) : String :=
  "\tRGB" ++ " " ++ (component r ++ "," ++ " " ++ (component g ++ "," ++ " " ++ component b))

theorem component_plain (hn : n < 32) :
    ' ' ∉ (component n).toList ∧ ',' ∉ (component n).toList ∧ '\n' ∉ (component n).toList := by
  have hall : ∀ n < 32, ' ' ∉ (component n).toList ∧ ',' ∉ (component n).toList ∧
      '\n' ∉ (component n).toList := by decide +kernel
  exact hall n hn

theorem end_plain (he : e ∈ ["", "\n"]) : ' ' ∉ e.toList ∧ ',' ∉ e.toList := by
  simp only [mem_cons, not_mem_nil, or_false] at he
  obtain rfl | rfl := he <;> decide

/-- A component is read with the blank in front of it and the end of the line behind it. -/
theorem readDecimal?_component (hn : n < 32) : readDecimal? (component n) = some (n : Int) ∧
    readDecimal? (" " ++ component n) = some (n : Int) ∧
    ∀ e ∈ ["", "\n"], readDecimal? (" " ++ (component n ++ e)) = some (n : Int) := by
  have hall : ∀ n < 32, readDecimal? (component n) = some (n : Int) ∧
      readDecimal? (" " ++ component n) = some (n : Int) ∧
      ∀ e ∈ ["", "\n"], readDecimal? (" " ++ (component n ++ e)) = some (n : Int) := by
    decide +kernel
  exact hall n hn

section

variable (hr : r < 32) (hg : g < 32) (hb : b < 32)

include hr hg hb

theorem newline_notMem_body : '\n' ∉ (body r g b).toList := by
  simp [body, component_plain, hr, hg, hb]

theorem parts_body (he : e ∈ ["", "\n"]) : parts ' ' (body r g b ++ e) =
    ["\tRGB", component r ++ ",", component g ++ ",", component b ++ e] := by
  have hlast : ' ' ∉ (component b ++ e).toList := by
    simp [component_plain hb, end_plain he]
  have hjoined : body r g b ++ e = "\tRGB" ++ " " ++ (component r ++ "," ++ " " ++
      (component g ++ "," ++ " " ++ (component b ++ e))) := by
    simp only [body, String.append_assoc]
  rw [hjoined, parts_append rfl (by decide), parts_append rfl (by simp [component_plain hr]),
    parts_append rfl (by simp [component_plain hg]), parts_of_notMem hlast]

/-- **One colour is read from its line.** -/
theorem readLine_colour (he : e ∈ ["", "\n"]) :
    readLine (body r g b ++ e) = .ok (some ⟨r, g, b⟩) := by
  have hjoin : String.intercalate " " [component r ++ ",", component g ++ ",", component b ++ e] =
      component r ++ "," ++ (" " ++ component g ++ "," ++ (" " ++ (component b ++ e))) := by
    rw [← String.toList_inj]
    simp
  have hlast : ',' ∉ (" " ++ (component b ++ e)).toList := by
    simp [component_plain hb, end_plain he]
  have hvalues : parts ',' (component r ++ "," ++ (" " ++ component g ++ "," ++
      (" " ++ (component b ++ e)))) = [component r, " " ++ component g, " " ++ (component b ++ e)] := by
    rw [parts_append rfl (component_plain hr).2.1, parts_append rfl (by simp [component_plain hg]),
      parts_of_notMem hlast]
  obtain ⟨hred, -, -⟩ := readDecimal?_component hr
  obtain ⟨-, hgreen, -⟩ := readDecimal?_component hg
  obtain ⟨-, -, hblue⟩ := readDecimal?_component hb
  have hstrip : strip "\tRGB" = "RGB" := by decide
  rw [readLine, parts_body hr hg hb he]
  simp only [hstrip, ne_eq, not_true, if_false, hjoin, hvalues]
  simp only [mapM_cons, mapM_nil, hred, hgreen, hblue e he]
  rfl

end

/-! ### All colours -/

theorem readLines_cons (hl : readLine l = .ok (some c)) (hls : readLines ls = .ok cs) :
    readLines (l :: ls) = .ok (c :: cs) := by
  obtain ⟨found, hfound, hcs⟩ := map_ok_iff.1 hls
  refine map_ok_iff.2 ⟨some c :: found, ?_, by rw [← hcs]; rfl⟩
  rw [mapM_cons, hl, hfound]
  rfl

theorem line_ofWord (word : Nat) :
    line (ofWord word) = body (word % 32) (word / 32 % 32) (word / 1024 % 32) ++ "\n" := by
  have hcolour : ofWord word =
      ⟨(word % 32 : Nat), (word / 32 % 32 : Nat), (word / 1024 % 32 : Nat)⟩ := rfl
  rw [hcolour, ← String.toList_inj]
  simp [line, body, component]

theorem text_cons_cons (lo hi : UInt8) (rest : List UInt8) :
    text (lo :: hi :: rest) = line (ofWord (hi.toNat * 0x100 + lo.toNat : Nat)) ++ text rest := by
  rw [text, words, map_cons, String.join_cons, text]

/-- **All colours are read from the lines**, with the ends of the lines or without. -/
theorem readLines_words (bytes : List UInt8) :
    readLines ((lines (text bytes).toList).map String.ofList) = .ok ((words bytes).map ofWord) ∧
      readLines (parts '\n' (text bytes)) = .ok ((words bytes).map ofWord) := by
  fun_induction words bytes with
  | case1 lo hi rest ih =>
    rw [text_cons_cons]
    generalize hi.toNat * 0x100 + lo.toNat = word
    have hlt : ∀ n : Nat, n % 32 < 32 := fun n => Nat.mod_lt n (by decide)
    have hplain := newline_notMem_body (hlt word) (hlt (word / 32)) (hlt (word / 1024))
    have hread : ∀ e ∈ ["", "\n"],
        readLine (body (word % 32) (word / 32 % 32) (word / 1024 % 32) ++ e) =
          .ok (some (ofWord word)) :=
      fun e he => readLine_colour (hlt _) (hlt _) (hlt _) he
    rw [line_ofWord]
    constructor
    · have hnewline : "\n".toList = ['\n'] := rfl
      rw [String.toList_append, String.toList_append, append_assoc, hnewline, singleton_append,
        lines_append_newline hplain, map_cons, ← hnewline, ← String.toList_append,
        String.ofList_toList]
      exact readLines_cons (hread "\n" (by decide)) ih.1
    · rw [parts_append rfl hplain]
      have hline := hread "" (by decide)
      rw [String.append_empty] at hline
      exact readLines_cons hline ih.2
  | case2 bytes hshort =>
    have htext : text bytes = "" := by
      rw [text, words.eq_2 _ hshort]
      rfl
    rw [htext]
    exact ⟨rfl, rfl⟩

theorem length_lt_two (h : ∀ lo hi rest, bytes = lo :: hi :: rest → False) : bytes.length < 2 := by
  rcases bytes with _ | ⟨lo, _ | ⟨hi, rest⟩⟩
  · exact Nat.two_pos
  · exact Nat.one_lt_two
  · exact (h lo hi rest rfl).elim

theorem length_words (bytes : List UInt8) : (words bytes).length = bytes.length / 2 := by
  fun_induction words bytes with
  | case1 lo hi rest ih =>
    simp only [length_cons, ih]
    omega
  | case2 bytes hshort => exact (Nat.div_eq_of_lt (length_lt_two hshort)).symm

theorem getElem?_words {i : Nat} {lo hi : UInt8} (hlo : bytes[2 * i]? = some lo)
    (hhi : bytes[2 * i + 1]? = some hi) :
    (words bytes)[i]? = some ((lo.toNat + 0x100 * hi.toNat : Nat) : Int) := by
  fun_induction words bytes generalizing i with
  | case1 lo' hi' rest ih =>
    cases i with
    | zero =>
      cases hlo
      cases hhi
      rw [getElem?_cons_zero, Nat.mul_comm, Nat.add_comm]
    | succ i => exact ih hlo hhi
  | case2 bytes hshort =>
    have hlength := length_lt_two hshort
    rw [getElem?_eq_none (by omega)] at hhi
    cases hhi

/-- **A palette is read back from its text**: a colour for each complete little-endian word, in
order, with five bits of the word for each component. -/
theorem readLines_text (bytes : List UInt8) :
    ∃ colours, readLines ((lines (text bytes).toList).map String.ofList) = .ok colours ∧
      readLines (parts '\n' (text bytes)) = .ok colours ∧
      colours.length = bytes.length / 2 ∧
      ∀ i lo hi, bytes[2 * i]? = some lo → bytes[2 * i + 1]? = some hi →
        ∃ c, colours[i]? = some c ∧
          c.red + 32 * c.green + 1024 * c.blue = (lo.toNat + 0x100 * hi.toNat : Int) % 0x8000 ∧
          ∀ x ∈ [c.red, c.green, c.blue], 0 ≤ x ∧ x ≤ 31 := by
  obtain ⟨hlines, hparts⟩ := readLines_words bytes
  refine ⟨_, hlines, hparts, by rw [length_map, length_words], fun i lo hi hlo hhi => ?_⟩
  rw [getElem?_map, getElem?_words hlo hhi]
  refine ⟨_, rfl, ?_⟩
  simp only [ofWord, forall_mem_cons, not_mem_nil, false_implies, implies_true, and_true]
  omega

end Cartridge.Palette
