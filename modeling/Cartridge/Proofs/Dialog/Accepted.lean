import Cartridge.Proofs.Dialog.Pointers
import Cartridge.Proofs.Dialog.Shapes
import Cartridge.Proofs.Dialog.Versions

/-!
# Texts that are accepted

Which of the texts of a section can be built.

Main results: `exists_layout_iff` and `exists_build_iff`.
-/

open List

namespace Cartridge.Dialog

open Text.Numeral Script Job Content Entry Sheet
open String (ofList_toList toList_append toList_ofList)

variable {t : Typeface} {s body rest : List Char} {ps qs : List Script.Part} {p : Script.Part}
  {code : Int} {pointer q : String} {spans : List (Nat × Nat)}

/-! ### Setting composed text -/

namespace Script

theorem Part.Ready.exists_effect_iff (h : p.Ready t) :
    (∃ e, effect t p = .ok e) ↔
      ∀ name, p = .command '&' name → ∃ bytes, insertion t name = .ok bytes := by
  have hinsertion : ∀ name, (∃ e, effect t (.command '&' name) = .ok e) ↔
      ∃ bytes, insertion t name = .ok bytes := by
    intro name
    simp only [effect, command?]
    cases insertion t name with
    | error f | ok bytes => simp [Functor.map, Except.map, Except.mapError]
  obtain ⟨bs, hbs⟩ | ⟨name, rfl⟩ := h
  · constructor
    · rintro - name rfl
      exact (hinsertion name).1 ⟨_, hbs⟩
    · intro _
      exact ⟨_, hbs⟩
  · rw [hinsertion name]
    constructor
    · rintro h name' hname
      cases hname
      exact h
    · intro h
      exact h name rfl

theorem Part.Ready.exists_bytes (h : p.Ready t) {e : Effect} (he : effect t p = .ok e) :
    ∃ bs, e = .bytes bs := by
  obtain ⟨bs, hbs⟩ | ⟨name, rfl⟩ := h
  · exact ⟨bs, Except.ok.inj (he.symm.trans hbs)⟩
  · simp only [effect, command?] at he
    cases hinsertion : insertion t name with
    | error f =>
      rw [hinsertion] at he
      cases he
    | ok bytes =>
      rw [hinsertion] at he
      cases he
      exact ⟨bytes, rfl⟩

/-- **Setting parts** that are ready, and then others: the end code is that of the others. -/
theorem exists_encodeParts_append_iff (hready : ∀ p ∈ ps, p.Ready t) :
    (∃ bytes, encodeParts t (ps ++ qs) = .ok (bytes, code)) ↔
      (∀ name, .command '&' name ∈ ps → ∃ bytes, insertion t name = .ok bytes) ∧
        ∃ bytes, encodeParts t qs = .ok (bytes, code) := by
  induction ps with
  | nil => simp
  | cons p ps ih =>
    obtain ⟨hp, hps⟩ := forall_mem_cons.1 hready
    have hnames : (∀ name, Part.command '&' name ∈ p :: ps →
          ∃ bytes, insertion t name = .ok bytes) ↔
        (∃ e, effect t p = .ok e) ∧
          ∀ name, Part.command '&' name ∈ ps → ∃ bytes, insertion t name = .ok bytes := by
      rw [hp.exists_effect_iff]
      constructor
      · intro h
        refine ⟨fun name hname => h name (hname ▸ mem_cons_self), fun name hname => ?_⟩
        exact h name (mem_cons_of_mem _ hname)
      · rintro ⟨hfirst, hothers⟩ name hname
        obtain hname | hname := mem_cons.1 hname
        · exact hfirst name hname.symm
        · exact hothers name hname
    rw [hnames, and_assoc, ← ih hps]
    constructor
    · rintro ⟨bytes, h⟩
      simp only [cons_append, encodeParts, bind_ok_iff] at h
      obtain ⟨e, he, h⟩ := h
      refine ⟨⟨e, he⟩, ?_⟩
      obtain ⟨bs, rfl⟩ := hp.exists_bytes he
      simp only [bind_ok_iff, pure_ok_iff, Prod.mk.injEq] at h
      obtain ⟨⟨more, code'⟩, hmore, -, rfl⟩ := h
      exact ⟨more, hmore⟩
    · rintro ⟨⟨e, he⟩, more, hmore⟩
      obtain ⟨bs, rfl⟩ := hp.exists_bytes he
      refine ⟨bs ++ more, ?_⟩
      simp only [cons_append, encodeParts, bind_ok_iff]
      exact ⟨_, he, bind_ok_iff.2 ⟨_, hmore, rfl⟩⟩

end Script

theorem parts_nil : parts [] = [] := by
  rw [parts.eq_def]

namespace Composed

theorem parts_append (h : Composed t s) (rest : List Char) :
    Script.parts (s ++ rest) = Script.parts s ++ Script.parts rest := by
  obtain ⟨ps, hps, -⟩ := h.parts
  have hself := hps []
  rw [append_nil, parts_nil, append_nil] at hself
  rw [hps, hself]

theorem ready (h : Composed t s) : ∀ p ∈ Script.parts s, p.Ready t := by
  obtain ⟨ps, hps, hready⟩ := h.parts
  have hself := hps []
  rw [append_nil, parts_nil, append_nil] at hself
  rwa [hself]

theorem exists_encode_iff (h : Composed t s) :
    (∃ bytes, encode t (s ++ rest) = .ok (bytes, code)) ↔
      (∀ name, .command '&' name ∈ Script.parts s → ∃ bytes, Script.insertion t name = .ok bytes) ∧
        ∃ bytes, encode t rest = .ok (bytes, code) := by
  rw [encode, h.parts_append]
  exact Script.exists_encodeParts_append_iff h.ready

end Composed

/-! ### What a cell says -/

def Content.ofCell (text : String) : Content :=
  if text.startsWith "@" then .shared (String.ofList (text.toList.dropWhile (· == '@')))
  else Content.ofText text.toList

def Entry.ofCells (e : String × String) : Entry := ⟨e.1, .ofCell e.2⟩

theorem contentOf_eq {text : String} (h : text ≠ "") (c : Sheet.Columns) (row : List String)
    (pointer : String) : contentOf c row pointer text = .ok (.ofCell text) := by
  have hempty : text.isEmpty = false := by
    rwa [← Bool.not_eq_true, String.isEmpty_iff]
  unfold contentOf ofCell
  by_cases hshared : text.startsWith "@" = true
  · rw [if_pos hshared, if_pos hshared]
    rfl
  · rw [if_neg hshared, if_neg hshared, hempty]
    rfl

theorem ofCell_eq_ofText (h : s.head? ≠ some '@') :
    ofCell (String.ofList s) = Content.ofText s := by
  have hchars : (String.ofList s).toList = s := toList_ofList
  have hstart : ¬(String.ofList s).startsWith "@" = true := by
    rw [String.startsWith_string_iff, hchars]
    rintro ⟨u, rfl⟩
    exact h rfl
  rw [ofCell, if_neg hstart, hchars]

theorem not_opening {kind : Char} (hkind : ∀ argument, command? t kind argument = none)
    (h : ∀ p ∈ (parts s).head?, p.Ready t ∨ ∃ argument, p = .command '*' argument) :
    ¬['<', kind] <+: s := by
  rintro ⟨u, rfl⟩
  have hne : ∀ argument, (command? t '&' argument).isSome ∧
      (command? t '*' argument).isSome := fun _ => ⟨rfl, rfl⟩
  rw [cons_append, singleton_append, parts.eq_def] at h
  simp only [if_pos] at h
  split at h
  · obtain (⟨bs, hbs⟩ | ⟨name, hname⟩) | ⟨argument, hargument⟩ := h _ rfl
    · simp only [effect, hkind] at hbs
      cases hbs
    · cases hname
      simpa [hkind] using (hne []).1
    · cases hargument
      simpa [hkind] using (hne []).2
  · obtain (⟨bs, hbs⟩ | ⟨name, hname⟩) | ⟨argument, hargument⟩ := h _ rfl
    · cases hbs
    · cases hname
    · cases hargument

theorem ofText_of_opening
    (h : ∀ p ∈ (parts s).head?, p.Ready t ∨ ∃ argument, p = .command '*' argument) :
    Content.ofText s = .text true s := by
  have hF : ¬['<', 'F'] <+: s := not_opening (fun _ => rfl) h
  have hN : ¬['<', 'N'] <+: s := not_opening (fun _ => rfl) h
  have hfinal : s ≠ "<FINAL>".toList := by
    rintro rfl
    exact hF ⟨"INAL>".toList, rfl⟩
  have hopen : "<NOTERM:".toList.isPrefixOf s ≠ true := by
    rw [Ne, isPrefixOf_iff_prefix]
    intro hprefix
    exact hN (List.IsPrefix.trans ⟨"OTERM:".toList, rfl⟩ hprefix)
  rw [Content.ofText, if_neg hfinal, if_neg hopen]

/-! ### Shapes that are accepted -/

theorem parts_withEnd (h : Composed t body) (code : UInt8) :
    ∃ qs, parts (withEnd body code.toNat) = parts body ++ qs ∧
      ∀ p ∈ qs, ∃ argument, p = .command '*' argument := by
  unfold withEnd
  split
  · exact ⟨[], by rw [append_nil], by simp⟩
  · refine ⟨parts (bracketed ("*" ++ digits code.toNat)), h.parts_append _, ?_⟩
    have hend := parts_digits (s := "*") rfl code []
    rw [append_nil, parts_nil] at hend
    rw [hend]
    intro p hp
    exact ⟨_, mem_singleton.1 hp⟩

theorem withEnd_head (h : Composed t body) (code : Nat) : (withEnd body code).head? ≠ some '@' := by
  unfold withEnd
  split
  · exact h.head
  · cases body with
    | nil => exact head?_bracketed _
    | cons c body => exact h.head

theorem withEnd_ne_nil (body : List Char) (code : Nat) : withEnd body code ≠ [] := by
  unfold withEnd
  split
  · rename_i h
    exact h.2
  · rw [bracketed_eq]
    simp

theorem encode_nil (t : Typeface) : encode t [] = .ok ([], 0) := by
  rw [encode, parts_nil]
  rfl

theorem exists_stored_text_iff {ended : Bool} :
    (∃ bytes, stored t ⟨pointer, .text ended s⟩ = .ok bytes) ↔
      ∃ code tail, (∃ bytes, encode t s = .ok (bytes, code)) ∧ ending ended s code = .ok tail := by
  simp only [stored, bind_ok_iff, pure_ok_iff]
  cases hencode : encode t s with
  | error flaw => simp [Except.mapError]
  | ok r =>
    obtain ⟨bytes, code⟩ := r
    simp [Except.mapError]

theorem exists_stored_ended_iff (h : Composed t body) (code : UInt8) :
    (∃ bytes, stored t ⟨pointer, .text true (withEnd body code.toNat)⟩ = .ok bytes) ↔
      ∀ name, .command '&' name ∈ parts body →
        ∃ bytes, insertion t name = .ok bytes := by
  -- Setting gives the end code that was shown.
  have hencode : ∀ c : Int, (∃ bytes, encode t (withEnd body code.toNat) = .ok (bytes, c)) ↔
      (∀ name, .command '&' name ∈ parts body →
        ∃ bytes, insertion t name = .ok bytes) ∧ c = code.toNat := by
    intro c
    unfold withEnd
    split
    · rename_i hzero
      have hiff : (∃ bytes, encode t (body ++ []) = .ok (bytes, c)) ↔ _ :=
        h.exists_encode_iff
      rw [append_nil, encode_nil] at hiff
      rw [hiff, hzero.1]
      simp [eq_comm]
    · rw [h.exists_encode_iff, encode_end]
      simp [eq_comm]
  have hending : ending true (withEnd body code.toNat) code.toNat = .ok [endCode, code] := by
    rw [ending, if_pos ⟨rfl, withEnd_ne_nil _ _⟩, Bytes.byteOf_toNat]
    rfl
  rw [exists_stored_text_iff]
  constructor
  · rintro ⟨c, -, hc, -⟩
    exact ((hencode c).1 hc).1
  · intro hnames
    exact ⟨code.toNat, _, (hencode _).2 ⟨hnames, rfl⟩, hending⟩

theorem exists_stored_endless_iff (h : Composed t body) :
    (∃ bytes, stored t ⟨pointer, .text false body⟩ = .ok bytes) ↔
      ∀ name, .command '&' name ∈ parts body →
        ∃ bytes, insertion t name = .ok bytes := by
  have hending : ∀ code, ending false body code = .ok [] := fun _ => by simp [ending]
  have hencode : ∀ c : Int, (∃ bytes, encode t (body ++ []) = .ok (bytes, c)) ↔ _ :=
    fun _ => h.exists_encode_iff
  simp only [append_nil, encode_nil] at hencode
  rw [exists_stored_text_iff]
  constructor
  · rintro ⟨c, -, hc, -⟩
    exact ((hencode c).1 hc).1
  · intro hnames
    exact ⟨0, _, (hencode 0).2 ⟨hnames, [], rfl⟩, hending 0⟩

theorem not_stored_piece (rest : List Char) {bytes : List UInt8} :
    stored t ⟨pointer, .text true ("<OFFSET:".toList ++ rest)⟩ ≠ .ok bytes := by
  intro hstored
  obtain ⟨code, -, ⟨bytes, hencode⟩, -⟩ := exists_stored_text_iff.1 ⟨bytes, hstored⟩
  have hO : ∀ argument, command? t 'O' argument = none := fun _ => rfl
  exact encode_unknown hO _ _ hencode

def Content.Named (t : Typeface) (content : Content) : Prop :=
  ∀ ended s, content = .text ended s → ∀ name, .command '&' name ∈ parts s →
    ∃ bytes, insertion t name = .ok bytes

theorem ofCell_piece (rest : List Char) :
    ofCell (String.ofList ("<OFFSET:".toList ++ rest)) =
      .text true ("<OFFSET:".toList ++ rest) := by
  rw [ofCell_eq_ofText (by simp)]
  simp [Content.ofText]

theorem ofCell_endless (body : List Char) :
    ofCell (String.ofList ("<NOTERM:".toList ++ body ++ ['>'])) = .text false body := by
  rw [ofCell_eq_ofText (by simp)]
  simp [Content.ofText]

theorem opening_withEnd (h : Composed t body) (code : UInt8) :
    ∀ p ∈ (Script.parts (withEnd body code.toNat)).head?,
      p.Ready t ∨ ∃ argument, p = .command '*' argument := by
  obtain ⟨qs, hparts, hqs⟩ := parts_withEnd h code
  intro p hp
  rw [hparts] at hp
  obtain hp | hp := mem_append.1 (mem_of_mem_head? hp)
  · exact .inl (h.ready p hp)
  · exact .inr (hqs p hp)

theorem ofCell_ended (h : Composed t body) (code : UInt8) :
    ofCell (String.ofList (withEnd body code.toNat)) =
      .text true (withEnd body code.toNat) := by
  rw [ofCell_eq_ofText (withEnd_head h code.toNat)]
  exact ofText_of_opening (opening_withEnd h code)

theorem toList_markedHex (n : Nat) : (markedHex n).toList = '0' :: 'x' :: digitsOf 16 n := by
  have hpos : ¬((n : Int) < 0) := by omega
  have hmark : "0x".toList = ['0', 'x'] := rfl
  rw [markedHex, if_neg hpos, toList_append, hmark, toList_ofList]
  rfl

theorem ofCell_repeated (place : Nat) :
    ofCell ("@" ++ markedHex place) = .shared (markedHex place) := by
  have hmark : "@".toList = ['@'] := rfl
  have hchars : ("@" ++ markedHex place).toList = '@' :: (markedHex place).toList := by
    rw [toList_append, hmark, singleton_append]
  have hstart : ("@" ++ markedHex place).startsWith "@" = true := by
    rw [String.startsWith_string_iff, toList_append]
    exact prefix_append ..
  -- the numeral itself starts with a zero
  have hdrop : ('@' :: (markedHex place).toList).dropWhile (· == '@') =
      (markedHex place).toList := by
    rw [toList_markedHex]
    rfl
  rw [ofCell, if_pos hstart, hchars, hdrop, ofList_toList]

theorem notMem_withEnd (h : Composed t body) (code : UInt8) : '\r' ∉ withEnd body code.toNat := by
  unfold withEnd
  split
  · exact h.plain
  · have hdigits : '\r' ∉ (digits code.toNat).toList := notMem_digits (by decide) code
    rw [mem_append, not_or]
    exact ⟨h.plain, notMem_bracketed (by simp [toList_append, hdigits])⟩

theorem unified_ofList (h : '\r' ∉ s) : Text.unified (String.ofList s) = String.ofList s := by
  rw [Text.unified_eq_iff, toList_ofList]
  exact h

theorem named_ended_iff (h : Composed t body) (code : UInt8) :
    (text true (withEnd body code.toNat)).Named t ↔
      ∀ name, .command '&' name ∈ parts body →
        ∃ bytes, insertion t name = .ok bytes := by
  obtain ⟨qs, hparts, hqs⟩ := parts_withEnd h code
  constructor
  · intro hnamed name hname
    refine hnamed true _ rfl name ?_
    rw [hparts]
    exact mem_append_left _ hname
  · rintro hnames ended s ⟨⟩ name hname
    rw [hparts] at hname
    obtain hname | hname := mem_append.1 hname
    · exact hnames name hname
    · -- the end inserts nothing
      obtain ⟨argument, hargument⟩ := hqs _ hname
      cases hargument

theorem not_piece_withEnd (h : Composed t body) (code : UInt8) :
    ¬"<OFFSET:".toList <+: withEnd body code.toNat := by
  intro hprefix
  have hO : ¬['<', 'O'] <+: withEnd body code.toNat :=
    not_opening (fun _ => rfl) (opening_withEnd h code)
  exact hO (List.IsPrefix.trans ⟨"FFSET:".toList, rfl⟩ hprefix)

/-- A text is read from a sheet as it is, unless it is a piece of another one, and then it is still
such a piece. -/
theorem Shape.unified (h : Shape t s) : Text.unified (String.ofList s) = String.ofList s ∨
    ∃ rest rest', s = "<OFFSET:".toList ++ rest ∧
      Text.unified (String.ofList s) = String.ofList ("<OFFSET:".toList ++ rest') := by
  cases h with
  | @ended body hbody code => exact .inl (unified_ofList (notMem_withEnd hbody code))
  | @endless body hbody =>
    have hline : '\r' ∉ "<NOTERM:".toList ++ body ++ ['>'] := by simp [hbody.plain]
    exact .inl (unified_ofList hline)
  | final => exact .inl (unified_ofList (by decide))
  | piece rest =>
    refine .inr ⟨rest, Text.unifyNewlines rest, rfl, ?_⟩
    rw [Text.unified, toList_ofList, Text.unifyNewlines_append_of_notMem (by decide)]
  | repeated place =>
    have hmark : "@".toList = ['@'] := rfl
    refine .inl (unified_ofList ?_)
    rw [toList_append, hmark, singleton_append, mem_cons, not_or]
    exact ⟨by decide, (unmarked_markedHex place).notMem (by decide)⟩

/-- **Which shapes are stored.**  A piece of another text is not, and any other text is exactly if
its insertions can be set. -/
theorem Shape.exists_stored_iff (h : Shape t s) (pointer : String) :
    (∃ bytes, stored t ⟨pointer, .ofCell (Text.unified (String.ofList s))⟩ = .ok bytes) ↔
      ¬"<OFFSET:".toList <+: s ∧ (Content.ofCell (String.ofList s)).Named t := by
  obtain hunified | ⟨rest, rest', rfl, hunified⟩ := h.unified
  · rw [hunified]
    cases h with
    | @ended body hbody code =>
      rw [ofCell_ended hbody, exists_stored_ended_iff hbody code, named_ended_iff hbody code,
        and_iff_right (not_piece_withEnd hbody code)]
    | @endless body hbody =>
      have hwhole : ¬"<OFFSET:".toList <+: "<NOTERM:".toList ++ body ++ ['>'] := by simp
      rw [ofCell_endless, exists_stored_endless_iff hbody, and_iff_right hwhole]
      constructor
      · rintro hnames ended s ⟨⟩
        exact hnames
      · intro hnamed
        exact hnamed false body rfl
    | final =>
      have hcell : ofCell (String.ofList "<FINAL>".toList) = .final := by
        rw [ofCell_eq_ofText (by simp)]
        simp [Content.ofText]
      rw [hcell]
      exact iff_of_true ⟨[], rfl⟩ ⟨by decide, fun _ _ h => by cases h⟩
    | piece rest =>
      rw [ofCell_piece]
      refine iff_of_false ?_ fun h => h.1 (prefix_append ..)
      rintro ⟨bytes, hbytes⟩
      exact not_stored_piece _ hbytes
    | repeated place =>
      rw [ofList_toList, ofCell_repeated]
      refine iff_of_true ⟨[], rfl⟩ ⟨?_, fun _ _ h => by cases h⟩
      simp
  · rw [hunified, ofCell_piece]
    refine iff_of_false ?_ fun h => h.1 (prefix_append ..)
    rintro ⟨bytes, hbytes⟩
    exact not_stored_piece _ hbytes

theorem Shape.shared_iff (h : Shape t s) :
    ofCell (Text.unified (String.ofList s)) = .shared q ↔
      ofCell (String.ofList s) = .shared q := by
  obtain hunified | ⟨rest, rest', rfl, hunified⟩ := h.unified
  · rw [hunified]
  · rw [hunified, ofCell_piece, ofCell_piece]
    exact iff_of_false (fun h => nomatch h) fun h => nomatch h

theorem Shape.unified_ne_empty (h : Shape t s) : Text.unified (String.ofList s) ≠ "" := by
  obtain hunified | ⟨rest, rest', -, hunified⟩ := h.unified
  · rw [hunified, Ne, String.ofList_eq_empty_iff]
    cases h with
    | ended hbody code => exact withEnd_ne_nil _ _
    | endless hbody => simp
    | final => decide
    | piece rest => simp
    | repeated place => simp [toList_append]
  · rw [hunified, Ne, String.ofList_eq_empty_iff]
    simp

/-! ### Laying out entries -/

section

variable {l l' : Layout} {w w' : Workspace} {e : Entry} {es : List Entry}
  {pointers keys keys' : List String}

theorem exists_offsetIn_iff :
    (∃ offset, e.offsetIn l = some offset) ↔ ∀ q, e.content = .shared q → q ∈ l.offsets.keys := by
  obtain ⟨pointer, content⟩ := e
  cases content with
  | shared q =>
    simp only [offsetIn, ← Table.mem_keys_iff, shared.injEq, forall_eq']
  | final | text ended s => simp [offsetIn]

/-- **One entry** is added exactly if it can be stored and what it shares was there before. -/
theorem exists_addEntry_iff :
    (∃ l', (addEntry t l e).on w = (.ok l', w)) ↔
      (∃ bytes, e.stored t = .ok bytes) ∧ ∀ q, e.content = .shared q → q ∈ l.offsets.keys := by
  rw [← exists_offsetIn_iff]
  constructor
  · rintro ⟨l', hadd⟩
    obtain ⟨-, bytes, offset, hbytes, hoffset, -⟩ := addEntry_ok_iff.1 hadd
    exact ⟨⟨bytes, hbytes⟩, offset, hoffset⟩
  · rintro ⟨⟨bytes, hbytes⟩, offset, hoffset⟩
    exact ⟨_, addEntry_ok_iff.2 ⟨rfl, bytes, offset, hbytes, hoffset, rfl⟩⟩

/-- Every entry that shares a text stands behind the one that it shares, which may also be among
`keys`. -/
def SharesBehind (keys : List String) (es : List Entry) : Prop :=
  ∀ before e after, es = before ++ e :: after → ∀ q, e.content = .shared q →
    q ∈ keys ∨ ∃ e' ∈ before, e'.pointer = q

theorem sharesBehind_cons_iff (hkeys : ∀ k, k ∈ keys' ↔ k = e.pointer ∨ k ∈ keys) :
    SharesBehind keys (e :: es) ↔
      (∀ q, e.content = .shared q → q ∈ keys) ∧ SharesBehind keys' es := by
  constructor
  · intro h
    constructor
    · intro q hq
      simpa using h [] e es rfl q hq
    · rintro before e' after rfl q hq
      rw [hkeys]
      obtain hmem | ⟨e'', he'', hpointer⟩ := h (e :: before) e' after rfl q hq
      · exact .inl (.inr hmem)
      · obtain rfl | he'' := mem_cons.1 he''
        · exact .inl (.inl hpointer.symm)
        · exact .inr ⟨e'', he'', hpointer⟩
  · rintro ⟨hfirst, hrest⟩ before e' after hsplit q hq
    cases before with
    | nil =>
      obtain ⟨rfl, -⟩ := List.cons.inj hsplit
      exact .inl (hfirst q hq)
    | cons first before =>
      obtain ⟨rfl, hothers⟩ := List.cons.inj hsplit
      obtain hmem | ⟨e'', he'', hpointer⟩ := hrest before e' after hothers q hq
      · obtain rfl | hmem := (hkeys q).1 hmem
        · exact .inr ⟨e, mem_cons_self, rfl⟩
        · exact .inl hmem
      · exact .inr ⟨e'', mem_cons_of_mem _ he'', hpointer⟩

/-- **All entries** are laid out exactly if each can be stored and stands behind what it shares. -/
theorem exists_addEntries_iff :
    (∃ l', (es.foldlM (addEntry t) l).on w = (.ok l', w)) ↔
      (∀ e ∈ es, ∃ bytes, e.stored t = .ok bytes) ∧ SharesBehind l.offsets.keys es := by
  induction es generalizing l with
  | nil =>
    refine iff_of_true ⟨l, rfl⟩ ⟨by simp, ?_⟩
    intro before e after hsplit
    simp at hsplit
  | cons e es ih =>
    have hstep : (∃ l', ((e :: es).foldlM (addEntry t) l).on w = (.ok l', w)) ↔
        ∃ l₁, (addEntry t l e).on w = (.ok l₁, w) ∧
          ∃ l', (es.foldlM (addEntry t) l₁).on w = (.ok l', w) := by
      simp only [foldlM_cons, on_bind_ok_iff]
      constructor
      · rintro ⟨l', l₁, w₁, hadd, hrest⟩
        obtain ⟨rfl, -⟩ := addEntry_ok_iff.1 hadd
        exact ⟨l₁, hadd, l', hrest⟩
      · rintro ⟨l₁, hadd, l', hrest⟩
        exact ⟨l', l₁, w, hadd, hrest⟩
    have hkeys : ∀ l₁, (addEntry t l e).on w = (.ok l₁, w) →
        ∀ k, k ∈ l₁.offsets.keys ↔ k = e.pointer ∨ k ∈ l.offsets.keys := by
      intro l₁ hadd k
      obtain ⟨-, bytes, offset, -, -, rfl⟩ := addEntry_ok_iff.1 hadd
      exact Table.mem_keys_insert_iff
    rw [hstep, forall_mem_cons]
    constructor
    · rintro ⟨l₁, hadd, hrest⟩
      obtain ⟨hstored, hshared⟩ := exists_addEntry_iff.1 ⟨l₁, hadd⟩
      obtain ⟨hall, hbehind⟩ := ih.1 hrest
      exact ⟨⟨hstored, hall⟩, (sharesBehind_cons_iff (hkeys l₁ hadd)).2 ⟨hshared, hbehind⟩⟩
    · rintro ⟨⟨hstored, hall⟩, hbehind⟩
      have hshared : ∀ q, e.content = .shared q → q ∈ l.offsets.keys := by
        intro q hq
        simpa using hbehind [] e es rfl q hq
      obtain ⟨l₁, hadd⟩ := exists_addEntry_iff.2 ⟨hstored, hshared⟩
      exact ⟨l₁, hadd, ih.2 ⟨hall, ((sharesBehind_cons_iff (hkeys l₁ hadd)).1 hbehind).2⟩⟩

theorem on_addEntries_of_on (h : (es.foldlM (addEntry t) l).on w = (.ok l', w')) (v : Workspace) :
    (es.foldlM (addEntry t) l).on v = (.ok l', v) := by
  induction es generalizing l w with
  | nil =>
    cases h
    rfl
  | cons e es ih =>
    simp only [foldlM_cons, on_bind_ok_iff] at h ⊢
    obtain ⟨l₁, w₁, hadd, hrest⟩ := h
    obtain ⟨-, bytes, offset, hbytes, hoffset, hl₁⟩ := addEntry_ok_iff.1 hadd
    exact ⟨l₁, v, addEntry_ok_iff.2 ⟨rfl, bytes, offset, hbytes, hoffset, hl₁⟩, ih hrest⟩

/-- What is laid out has a length wherever it has an offset, and each pointer once. -/
structure Layout.Filled (l : Layout) (pointers : List String) : Prop where
  lengths : ∀ k ∈ l.offsets.keys, k ∈ l.lengths.keys
  nodup : l.offsets.keys.Nodup
  subset : ∀ k ∈ l.offsets.keys, k ∈ pointers

theorem filled_of_addEntries (hl : l.Filled pointers)
    (h : (es.foldlM (addEntry t) l).on w = (.ok l', w')) :
    l'.Filled (pointers ++ es.map Entry.pointer) := by
  induction es generalizing l pointers w with
  | nil =>
    cases h
    simpa using hl
  | cons e es ih =>
    simp only [foldlM_cons, on_bind_ok_iff] at h
    obtain ⟨l₁, w₁, hadd, hrest⟩ := h
    obtain ⟨rfl, bytes, offset, -, -, rfl⟩ := addEntry_ok_iff.1 hadd
    have hl₁ : Layout.Filled ⟨l.text ++ bytes.toArray, l.offsets.insert e.pointer offset,
        l.lengths.insert e.pointer bytes.length⟩ (pointers ++ [e.pointer]) := by
      refine ⟨fun k hk => ?_, Table.nodup_keys_insert hl.nodup _ _, fun k hk => ?_⟩
      · rw [Table.mem_keys_insert_iff] at hk ⊢
        exact hk.imp_right (hl.lengths k)
      · rw [mem_append, mem_singleton, or_comm]
        exact (Table.mem_keys_insert_iff.1 hk).imp_right (hl.subset k)
    simpa using ih hl₁ hrest

theorem Layout.Filled.exists_spans (h : l.Filled pointers) : ∃ spans, l.spans = .ok spans := by
  refine exists_mapM_eq_ok fun k hk => ?_
  rw [Layout.listed, mem_mergeSort] at hk
  have hkey := mem_of_mem_filter hk
  obtain ⟨offset, hoffset⟩ := Table.mem_keys_iff.1 hkey
  obtain ⟨length, hlength⟩ := Table.mem_keys_iff.1 (h.lengths k hkey)
  refine ⟨(offset, length), ?_⟩
  simp only [bind_ok_iff, demand_ok_iff, pure_ok_iff]
  exact ⟨offset, hoffset, length, hlength, rfl⟩

theorem Layout.Filled.length_spans (h : l.Filled pointers) (hspans : l.spans = .ok spans) :
    spans.length ≤ (pointers.filter fun k => !k.startsWith "UNUSED").length := by
  rw [← (mapM_ok_iff.1 hspans).length_eq, Layout.listed, length_mergeSort]
  have hnodup : (l.offsets.keys.filter fun k => !k.startsWith "UNUSED").Nodup :=
    h.nodup.sublist filter_sublist
  refine (List.Nodup.subperm hnodup fun k hk => ?_).length_le
  obtain ⟨hmem, hlisted⟩ := mem_filter.1 hk
  exact mem_filter.2 ⟨h.subset k hmem, hlisted⟩

end

/-! ### Building sheets -/

/-- **What is accepted of texts**: no piece of another text, insertions that can be set, and
repeated pointers behind those that they repeat. -/
structure Accepted (t : Typeface) (texts : Texts) : Prop where
  whole : ∀ e ∈ texts, ¬"<OFFSET:".toList <+: e.2.toList
  named : ∀ e ∈ texts, (ofCell e.2).Named t
  behind : ∀ before e after, texts = before ++ e :: after → ∀ q, ofCell e.2 = .shared q →
    ∃ e' ∈ before, e'.1.text = q

def Entry.ofText (e : Pointer × String) : Entry := .ofCells (readBack e)

section

variable {texts : Texts} {w w' : Workspace}

theorem sharesBehind_iff (h : ∀ e ∈ texts, Shape t e.2.toList) :
    SharesBehind [] (texts.map ofText) ↔
      ∀ before e after, texts = before ++ e :: after → ∀ q, ofCell e.2 = .shared q →
        ∃ e' ∈ before, e'.1.text = q := by
  have hshared : ∀ e ∈ texts, ∀ q, (ofText e).content = .shared q ↔
      ofCell e.2 = .shared q := by
    intro e he q
    have hiff := (h e he).shared_iff (q := q)
    rwa [ofList_toList] at hiff
  constructor
  · rintro hbehind before e after rfl q hq
    have he : e ∈ before ++ e :: after := mem_append_right _ mem_cons_self
    obtain hmem | ⟨entry, hentry, hpointer⟩ := hbehind (before.map ofText) (.ofText e)
      (after.map ofText) (by simp) q ((hshared e he q).2 hq)
    · cases hmem
    · obtain ⟨e', he', rfl⟩ := mem_map.1 hentry
      exact ⟨e', he', hpointer⟩
  · intro hbehind before' entry after' hsplit q hq
    obtain ⟨before, rest, rfl, rfl, hrest⟩ := map_eq_append_iff.1 hsplit
    obtain ⟨e, after, rfl, rfl, rfl⟩ := map_eq_cons_iff.1 hrest
    have he : e ∈ before ++ e :: after := mem_append_right _ mem_cons_self
    obtain ⟨e', he', hpointer⟩ := hbehind before e after rfl q ((hshared e he q).1 hq)
    exact .inr ⟨_, mem_map_of_mem he', hpointer⟩

/-- **Texts are laid out** exactly if they are accepted. -/
theorem exists_layout_iff (h : ∀ e ∈ texts, Shape t e.2.toList) :
    (∃ l, ((texts.map ofText).foldlM (addEntry t) {}).on w = (.ok l, w)) ↔
      Accepted t texts := by
  have hstored : ∀ e ∈ texts, (∃ bytes, (ofText e).stored t = .ok bytes) ↔
      ¬"<OFFSET:".toList <+: e.2.toList ∧ (Content.ofCell e.2).Named t := by
    intro e he
    have hiff := (h e he).exists_stored_iff e.1.text
    rwa [ofList_toList] at hiff
  rw [exists_addEntries_iff]
  constructor
  · rintro ⟨hall, hbehind⟩
    refine ⟨fun e he => ?_, fun e he => ?_, (sharesBehind_iff h).1 hbehind⟩
    · exact ((hstored e he).1 (hall _ (mem_map_of_mem he))).1
    · exact ((hstored e he).1 (hall _ (mem_map_of_mem he))).2
  · rintro ⟨hwhole, hnamed, hbehind⟩
    refine ⟨fun entry hentry => ?_, (sharesBehind_iff h).2 hbehind⟩
    obtain ⟨e, he, rfl⟩ := mem_map.1 hentry
    exact (hstored e he).2 ⟨hwhole e he, hnamed e he⟩

end

section

variable {texts : Texts} {w w' : Workspace} {l : Layout} {c : Sheet.Columns}
  {version column : String} {rows sheet : List (List String)}
  {choices : List (Option (String × String))} {selected : List (Option Entry)}

theorem mapM_select (h : rows.mapM (choose c version) = .ok choices)
    (hne : ∀ e ∈ choices.reduceOption, e.2 ≠ "") :
    rows.mapM (select c version) = .ok (choices.map (Option.map ofCells)) := by
  have hall := mapM_ok_iff.1 h
  clear h
  rw [mapM_ok_iff]
  induction hall with
  | nil => exact .nil
  | @cons row choice rows choices hrow _ ih =>
    cases choice with
    | none =>
      refine .cons ?_ (ih hne)
      rw [select, hrow]
      rfl
    | some e =>
      rw [reduceOption_cons_of_some, forall_mem_cons] at hne
      refine .cons ?_ (ih hne.2)
      rw [select, hrow]
      rw [bind_ok_iff]
      exact ⟨some e, rfl, bind_ok_iff.2 ⟨_, contentOf_eq hne.1 c row e.1, rfl⟩⟩

def addRow (t : Typeface) (c : Columns) (version : String) (l : Layout) (row : List String) :
    Job Layout := do
  match ← lift (select c version row) with
  | none => return l
  | some e => addEntry t l e

theorem on_addRows (h : rows.mapM (select c version) = .ok selected) :
    (rows.foldlM (addRow t c version) l).on w =
      (selected.reduceOption.foldlM (addEntry t) l).on w := by
  induction rows generalizing selected l w with
  | nil =>
    obtain rfl := pure_ok_iff.1 h
    rfl
  | cons row rows ih =>
    rw [mapM_ok_iff, forall₂_cons_left_iff] at h
    obtain ⟨choice, others, hselect, hothers, rfl⟩ := h
    have hrows := mapM_ok_iff.2 hothers
    rw [foldlM_cons]
    cases choice with
    | none =>
      have hrow : addRow t c version l row = pure l := by
        rw [addRow, hselect]
        rfl
      rw [hrow, pure_bind, ih hrows, reduceOption_cons_of_none]
    | some e =>
      have hrow : addRow t c version l row = addEntry t l e := by
        rw [addRow, hselect]
        rfl
      rw [hrow, reduceOption_cons_of_some, foldlM_cons, on_bind, on_bind]
      rcases (addEntry t l e).on w with ⟨result, w₁⟩
      cases result with
      | error f => rfl
      | ok l₁ => exact ih hrows

/-- Offsets and lengths of texts fit in words, wherever the texts are laid out. -/
def Fits (t : Typeface) (texts : Texts) : Prop :=
  ∀ w l w' spans, ((texts.map ofText).foldlM (addEntry t) {}).on w = (.ok l, w') →
    l.spans = .ok spans → ∀ s ∈ spans, s.1 < 0x10000 ∧ s.2 < 0x10000

theorem fits_of_layout (hl : ((texts.map ofText).foldlM (addEntry t) {}).on w = (.ok l, w'))
    (hspans : l.spans = .ok spans) (hall : ∀ s ∈ spans, s.1 < 0x10000 ∧ s.2 < 0x10000) :
    Fits t texts := by
  intro v l₁ v' spans₁ hl₁ hspans₁
  obtain rfl := Except.ok.inj (congrArg Prod.fst (hl₁.symm.trans (on_addEntries_of_on hl v)))
  obtain rfl := Except.ok.inj (hspans₁.symm.trans hspans)
  exact hall

theorem length_listed_le (texts : Texts) :
    (((texts.map ofText).map Entry.pointer).filter fun k => !k.startsWith "UNUSED").length ≤
      (texts.filter fun e => !e.1.isUnused).length := by
  rw [map_map, filter_map, length_map]
  refine (monotone_filter_right texts fun e he => ?_).length_le
  obtain ⟨pointer, text⟩ := e
  cases pointer with
  | slot p => rfl
  | unused n =>
    have hstart : (Pointer.unused n).text.startsWith "UNUSED" = true := by
      rw [String.startsWith_string_iff, Pointer.text, toList_append]
      exact prefix_append ..
    simp [ofText, ofCells, readBack, hstart] at he

theorem on_layOut_of_chosen {header : List String} (hsound : SoundTexts t texts)
    (hheader : sheet.head? = some header) (hc : Columns.find header column = .ok c)
    (hchosen : chosen column version sheet = .ok (texts.map readBack)) :
    (layOut t c version (sheet.drop 1)).on w =
      ((texts.map ofText).foldlM (addEntry t) {}).on w := by
  simp only [chosen, bind_ok_iff, demand_ok_iff] at hchosen
  obtain ⟨header', hheader', c', hc', hrows⟩ := hchosen
  obtain rfl := Option.some.inj (hheader.symm.trans hheader')
  obtain rfl := Except.ok.inj (hc.symm.trans hc')
  obtain ⟨choices, hchoices, hreduced⟩ := map_ok_iff.1 hrows
  have hne : ∀ e ∈ choices.reduceOption, e.2 ≠ "" := by
    rw [hreduced]
    intro cells hcells
    obtain ⟨e, he, rfl⟩ := mem_map.1 hcells
    have hne := (hsound.shapes e he).unified_ne_empty
    rwa [ofList_toList] at hne
  have hselect := mapM_select hchoices hne
  change ((sheet.drop 1).foldlM (addRow t c version) {}).on w = _
  rw [on_addRows hselect, reduceOption_map, hreduced, map_map]
  rfl

/-- **A sheet is built** for a version exactly if the texts that the version finds in it are
accepted. -/
theorem exists_build_iff {output input pointers portraits key : String} {s : List Char}
    (ht : (readTypeface pointers portraits).on w = (.ok t, w))
    (hs : (readMarkedText input).on w = (.ok s, w))
    (hchosen : chosen "Original" version (Text.Csv.parse s) = .ok (texts.map readBack))
    (hsound : SoundTexts t texts) (houtput : w.target output = .ok key) (hfits : Fits t texts) :
    (∃ w', (build output input pointers portraits "Original" version).on w = (.ok (), w')) ↔
      Accepted t texts := by
  rw [← exists_layout_iff (w := w) hsound.shapes]
  constructor
  · rintro ⟨w', hbuild⟩
    obtain ⟨t', s', header, c, l, -, -, -, -, ht', hs', hheader, hc, hl, -⟩ :=
      build_ok_iff.1 hbuild
    obtain rfl := Except.ok.inj (congrArg Prod.fst (ht.symm.trans ht'))
    obtain rfl := Except.ok.inj (congrArg Prod.fst (hs.symm.trans hs'))
    rw [on_layOut_of_chosen hsound hheader hc hchosen] at hl
    exact ⟨l, hl⟩
  · rintro ⟨l, hl⟩
    obtain ⟨header, hheader, hcolumns⟩ := bind_ok_iff.1 hchosen
    obtain ⟨c, hc, -⟩ := bind_ok_iff.1 hcolumns
    rw [demand_ok_iff] at hheader
    have hempty : Layout.Filled {} [] := ⟨fun _ h => (nomatch h), nodup_nil, fun _ h => (nomatch h)⟩
    have hfilled := filled_of_addEntries hempty hl
    rw [nil_append] at hfilled
    obtain ⟨spans, hspans⟩ := hfilled.exists_spans
    -- the offsets and lengths fit by assumption, and their number because a section is small
    have hin := hfits w l w spans hl hspans
    have htable : ∀ n ∈ spans.flatMap fun s => [(s.1 : Int), (s.2 : Int)], 0 ≤ n ∧ n < 0x10000 := by
      intro n hn
      obtain ⟨span, hspan, hn⟩ := mem_flatMap.1 hn
      have hspan := hin span hspan
      obtain rfl | rfl : n = span.1 ∨ n = span.2 := by simpa using hn
      · omega
      · omega
    have hcount : 0 ≤ (spans.length : Int) ∧ (spans.length : Int) < 0x10000 := by
      have hlength := hfilled.length_spans hspans
      have hlisted := length_listed_le texts
      have hfew := hsound.few
      omega
    rw [← on_layOut_of_chosen hsound hheader hc hchosen] at hl
    exact ⟨_, build_ok_iff.2 ⟨t, s, header, c, l, spans, _, key, _, ht, hs, hheader, hc, hl, hspans,
      Bytes.words_ok_iff.2 ⟨htable, rfl⟩, houtput, Bytes.word_ok_iff.2 ⟨hcount, rfl⟩, rfl⟩⟩

end

end Cartridge.Dialog
