import Cartridge.Tileset
import Mathlib.Data.List.Infix
import Mathlib.Data.Nat.Bitwise
import Mathlib.Tactic.SplitIfs

/-!
# Packed tilesets as tokens

A packed tileset is a list of tokens: literal bytes, and matches that repeat bytes written before.
This file says what tokens write (`Token.expand`) and how they are stored (`Token.stored`), and
shows that `decode` reads them back.

* `decode_plain`: data that is stored as it is comes back.

A match is copied byte by byte, so it may run into the bytes that it has just written.  Tokens stand
in groups of sixteen of which the last may be shorter; decoding leaves it as soon as the data has
its full size (`Run`).
-/

open List

namespace Cartridge.Tileset

/-- A match: how far it reaches back, one less, and the number of bytes it repeats. -/
structure Match where
  back : Nat
  length : Nat
  back_lt : back < 0x800
  three_le : 3 ≤ length
  length_le : length ≤ 34
  deriving DecidableEq, Repr

inductive Token where
  | literal (b : UInt8)
  | copy (m : Match)
  deriving DecidableEq, Repr

def repeatBack (back : Nat) : Nat → List UInt8 → List UInt8
  | 0, data => data
  | n + 1, data => repeatBack back n (data ++ [data.getD (data.length - (back + 1)) 0])

def wordBytes (w : Nat) : List UInt8 := [(w % 0x100).toUInt8, (w / 0x100).toUInt8]

namespace Token

def write (data : List UInt8) : Token → List UInt8
  | literal b => data ++ [b]
  | copy m => repeatBack m.back m.length data

def expand (data : List UInt8) (ts : List Token) : List UInt8 := ts.foldl write data

def Within (n : Nat) : Token → Prop
  | literal _ => True
  | copy m => m.back + 1 ≤ n

/-- Whether no token reaches back beyond the start of the data written before it. -/
def AllWithin (data : List UInt8) : List Token → Prop
  | [] => True
  | t :: ts => t.Within data.length ∧ AllWithin (t.write data) ts

instance (n : Nat) (t : Token) : Decidable (t.Within n) :=
  match t with
  | literal _ => isTrue trivial
  | copy m => inferInstanceAs (Decidable (m.back + 1 ≤ n))

instance decidableAllWithin (data : List UInt8) : (ts : List Token) → Decidable (AllWithin data ts)
  | [] => isTrue trivial
  | t :: ts => @instDecidableAnd _ _ _ (decidableAllWithin (t.write data) ts)

def isCopy : Token → Bool
  | literal _ => false
  | copy _ => true

/-- The bytes of a token.  A match is a word with the length in its top five bits. -/
def bytes : Token → List UInt8
  | literal b => [b]
  | copy m => wordBytes (m.back + 0x800 * (m.length - 3))

def flagWord (ts : List Token) : Nat := ts.foldr (fun t w => Nat.bit t.isCopy w) 0

def groups (ts : List Token) : List UInt8 :=
  if ts.isEmpty then []
  else wordBytes (flagWord (ts.take 16)) ++ (ts.take 16).flatMap bytes ++ groups (ts.drop 16)
termination_by ts.length
decreasing_by
  simp only [List.isEmpty_iff, ← length_pos_iff] at *
  rw [length_drop]
  omega

/-- The stored form of tokens: the flag of packed data, the size of the data, and the groups. -/
def stored (ts : List Token) : List UInt8 :=
  1 :: wordBytes (expand [] ts).length ++ groups ts

end Token

/-- The bytes `l` stand at position `pos` of an image. -/
def Holds (image : ByteArray) (pos : Nat) (l : List UInt8) : Prop :=
  l <+: image.data.toList.drop pos

variable {image : ByteArray} {pos total back n w : Nat} {a b flag : UInt8} {l l' data : List UInt8}
  {t : Token} {ts us : List Token} {flags : List Bool}

/-! ### Bytes of an image -/

theorem holds_append : Holds image pos (l ++ l') ↔
    Holds image pos l ∧ Holds image (pos + l.length) l' := by
  rw [Holds, Holds, Holds, ← drop_drop]
  constructor
  · rintro ⟨r, hr⟩
    rw [← hr]
    exact ⟨⟨l' ++ r, by simp⟩, ⟨r, by simp⟩⟩
  · rintro ⟨⟨r, hr⟩, ⟨r', hr'⟩⟩
    rw [← hr, drop_left] at hr'
    exact ⟨r', by rw [← hr, ← hr', append_assoc]⟩

theorem Holds.getElem (h : Holds image pos (b :: l)) :
    ∃ hpos : pos < image.size, image[pos] = b := by
  have hget : (image.data.toList.drop pos)[0]? = some b := by
    obtain ⟨r, hr⟩ := h
    rw [← hr]
    rfl
  rw [getElem?_drop, Array.getElem?_toList] at hget
  obtain ⟨hpos, hget⟩ := Array.getElem?_eq_some_iff.1 hget
  exact ⟨hpos, hget⟩

theorem Holds.tail (h : Holds image pos (b :: l)) : Holds image (pos + 1) l :=
  (holds_append (l := [b]).1 h).2

theorem Holds.extract (h : Holds image pos l) :
    image.extract pos (pos + l.length) = l.toByteArray := by
  apply ByteArray.ext
  rw [ByteArray.data_extract, data_toByteArray]
  apply Array.toList_inj.1
  rw [Array.toList_extract, extract_eq_take_drop, Nat.add_sub_cancel_left]
  exact (prefix_iff_eq_take.1 h).symm

theorem Holds.length_le (h : Holds image pos l) : l.length ≤ image.size - pos := by
  have := List.IsPrefix.length_le h
  rwa [length_drop] at this

theorem Holds.word (hw : w < 0x10000) (h : Holds image pos (wordBytes w)) :
    ∃ hpos : pos + 1 < image.size, image[pos].toNat + 0x100 * image[pos + 1].toNat = w := by
  obtain ⟨_, hlow⟩ := h.getElem
  obtain ⟨hpos, hhigh⟩ := h.tail.getElem
  refine ⟨hpos, ?_⟩
  rw [hlow, hhigh, UInt8.toNat_ofNat', UInt8.toNat_ofNat']
  omega

theorem holds_singleton (hpos : pos < image.size) : Holds image pos [image[pos]] := by
  have hlt : pos < image.data.toList.length := hpos
  rw [Holds, drop_eq_getElem_cons hlt]
  exact prefix_append [_] _

theorem holds_wordBytes (hfirst : pos < image.size) (hpos : pos + 1 < image.size) :
    Holds image pos (wordBytes (image[pos].toNat + 0x100 * image[pos + 1].toNat)) := by
  have hlow := image[pos].toNat_lt
  have hbyte : ((image[pos].toNat + 0x100 * image[pos + 1].toNat) % 0x100).toUInt8 =
      image[pos] := by
    rw [show (image[pos].toNat + 0x100 * image[pos + 1].toNat) % 0x100 = image[pos].toNat by omega]
    exact UInt8.ofNat_toNat
  have hsecond : ((image[pos].toNat + 0x100 * image[pos + 1].toNat) / 0x100).toUInt8 =
      image[pos + 1] := by
    rw [show (image[pos].toNat + 0x100 * image[pos + 1].toNat) / 0x100 = image[pos + 1].toNat by
      omega]
    exact UInt8.ofNat_toNat
  rw [wordBytes, hbyte, hsecond]
  exact holds_append (l := [image[pos]]).2 ⟨holds_singleton hfirst, holds_singleton hpos⟩

/-! ### What tokens write -/

theorem length_repeatBack (back n : Nat) (data : List UInt8) :
    (repeatBack back n data).length = data.length + n := by
  induction n generalizing data with
  | zero => rfl
  | succ n ih =>
    rw [repeatBack, ih, length_append, length_singleton]
    omega

theorem copyFrom_toArray (n : Nat) (h : back + 1 ≤ data.length) :
    copyFrom (data.length - (back + 1)) n data.toArray = (repeatBack back n data).toArray := by
  induction n generalizing data with
  | zero => rfl
  | succ n ih =>
    have hbyte : data.toArray.getD (data.length - (back + 1)) 0 =
        data.getD (data.length - (back + 1)) 0 := by
      rw [Array.getD_eq_getD_getElem?, getD_eq_getElem?_getD, getElem?_toArray]
    rw [copyFrom, repeatBack, ← ih (by rw [length_append]; omega), push_toArray, hbyte,
      length_append, length_singleton]
    congr 1
    omega

namespace Token

@[simp] theorem expand_nil (data : List UInt8) : expand data [] = data := rfl

@[simp] theorem expand_cons (data : List UInt8) (t : Token) (ts : List Token) :
    expand data (t :: ts) = expand (t.write data) ts := rfl

theorem length_lt_write (data : List UInt8) (t : Token) : data.length < (t.write data).length := by
  cases t with
  | literal b => simp [write]
  | copy m =>
    have := m.three_le
    rw [write, length_repeatBack]
    omega

theorem length_le_expand (data : List UInt8) (ts : List Token) :
    data.length ≤ (expand data ts).length := by
  induction ts generalizing data with
  | nil => exact Nat.le_refl _
  | cons t ts ih => exact (length_lt_write data t).le.trans (ih _)

theorem length_lt_expand (data : List UInt8) (hne : ts ≠ []) :
    data.length < (expand data ts).length := by
  obtain ⟨t, us, rfl⟩ := exists_cons_of_ne_nil hne
  exact (length_lt_write data t).trans_le (length_le_expand _ us)

/-! ### The flags of a group -/

theorem flagWord_lt (ts : List Token) : flagWord ts < 2 ^ ts.length := by
  induction ts with
  | nil => exact Nat.one_pos
  | cons t ts ih => exact Nat.bit_lt_two_pow_succ_iff.2 ih

theorem testBit_flagWord (ts : List Token) (i : Nat) :
    (flagWord ts).testBit i = (ts.map isCopy).getD i false := by
  induction ts generalizing i with
  | nil => exact Nat.zero_testBit i
  | cons t ts ih =>
    cases i with
    | zero => exact Nat.testBit_bit_zero ..
    | succ i => exact (Nat.testBit_bit_succ ..).trans (ih i)

end Token

open Token

theorem flagsOf_flagWord (h : ts.length ≤ 16) :
    flagsOf (flagWord ts) = ts.map isCopy ++ List.replicate (16 - ts.length) false := by
  have hlen : (flagsOf (flagWord ts)).length =
      (ts.map isCopy ++ List.replicate (16 - ts.length) false).length := by
    simp [flagsOf]
    omega
  refine ext_getElem hlen fun i hi hi' => ?_
  simp only [flagsOf, getElem_map, getElem_range, testBit_flagWord]
  by_cases hlt : i < (ts.map isCopy).length
  · rw [getD_eq_getElem _ _ hlt, getElem_append_left hlt]
  · rw [getD_eq_default _ _ (Nat.le_of_not_lt hlt),
      getElem_append_right (Nat.le_of_not_lt hlt), getElem_replicate]

/-! ### Reading tokens -/

theorem Holds.copy {m : Match} (h : Holds image pos (copy m).bytes) :
    ∃ (hfirst : pos < image.size) (hpos : pos + 1 < image.size), ∃ w,
      image[pos].toNat + 0x100 * image[pos + 1].toNat = w ∧ w % 0x800 = m.back ∧
        w / 0x800 + 3 = m.length := by
  have hback := m.back_lt
  have hthree := m.three_le
  have hlength := m.length_le
  obtain ⟨hpos, hword⟩ := h.word (by omega)
  exact ⟨by omega, hpos, _, hword, by omega, by omega⟩

/-- **One token.**  It is read at its place, and its group is left if the data has its full size. -/
theorem tokens_cons (hheld : Holds image pos t.bytes) (hin : t.Within data.length) :
    tokens image total pos (t.isCopy :: flags) data.toArray =
      tokens image total (pos + t.bytes.length)
        (if (t.write data).length = total then [] else flags) (t.write data).toArray := by
  cases t with
  | literal b =>
    obtain ⟨hpos, hb⟩ := hheld.getElem
    rw [isCopy, tokens, dif_pos hpos, hb]
    simp [write, bytes]
  | copy m =>
    obtain ⟨_, hpos, w, hword, hback, hcount⟩ := hheld.copy
    rw [isCopy, tokens, dif_pos hpos]
    simp only [hword, hback, hcount, size_toArray, if_neg (Nat.not_lt.2 hin),
      copyFrom_toArray _ hin]
    rfl

theorem tokens_nil (hw : w < 0x10000) (hheld : Holds image pos (wordBytes w))
    (hmissing : data.length < total) :
    tokens image total pos [] data.toArray =
      tokens image total (pos + (wordBytes w).length) (flagsOf w) data.toArray := by
  obtain ⟨hpos, hword⟩ := hheld.word hw
  rw [tokens, size_toArray, if_pos hmissing, dif_pos hpos]
  simp only [hword]
  rfl

/-- The tokens that are read from some data on until it has its full size, the flags of the current
group being given, and the bytes that they take up. -/
inductive Run (total : Nat) : List Bool → List UInt8 → List Token → List UInt8 → Prop
  /-- The data has its size at the end of a group. -/
  | done {data : List UInt8} (hfull : total ≤ data.length) : Run total [] data [] []
  /-- The data has not, and another group follows. -/
  | group {w : Nat} {data l : List UInt8} {ts : List Token} (hw : w < 0x10000)
      (hmissing : data.length < total) (hrest : Run total (flagsOf w) data ts l) :
    Run total [] data ts (wordBytes w ++ l)
  /-- A token is read, and its group is left if the data has its size. -/
  | token {flags : List Bool} {data l : List UInt8} {t : Token} {ts : List Token}
      (hin : t.Within data.length)
      (hrest : Run total (if (t.write data).length = total then [] else flags) (t.write data) ts l) :
    Run total (t.isCopy :: flags) data (t :: ts) (t.bytes ++ l)

theorem tokens_of_run (hrun : Run total flags data ts l) (hheld : Holds image pos l) :
    tokens image total pos flags data.toArray = .ok ((expand data ts).toArray, pos + l.length) := by
  induction hrun generalizing pos with
  | done hfull => rw [tokens, size_toArray, if_neg (Nat.not_lt.2 hfull)]; rfl
  | group hw hmissing _ ih =>
    obtain ⟨hword, hrest⟩ := holds_append.1 hheld
    rw [tokens_nil hw hword hmissing, ih hrest, length_append, Nat.add_assoc]
  | token hin _ ih =>
    obtain ⟨hfirst, hrest⟩ := holds_append.1 hheld
    rw [tokens_cons hfirst hin, ih hrest, length_append, Nat.add_assoc, expand_cons]

/-! ### Groups -/

/-- Tokens in groups: each is announced by a flag, and when the flags are used up, a word with
sixteen new ones comes.  After the last token flags may be left over. -/
inductive Token.Grouped : List Bool → List Token → List UInt8 → Prop
  | nil {flags : List Bool} : Grouped flags [] []
  | word {w : Nat} {ts : List Token} {l : List UInt8} (hw : w < 0x10000) (hne : ts ≠ [])
      (hrest : Grouped (flagsOf w) ts l) : Grouped [] ts (wordBytes w ++ l)
  | token {flags : List Bool} {t : Token} {ts : List Token} {l : List UInt8}
      (hrest : Grouped flags ts l) : Grouped (t.isCopy :: flags) (t :: ts) (t.bytes ++ l)

theorem Token.Grouped.run (h : Grouped flags ts l) (hin : AllWithin data ts)
    (hexact : (expand data ts).length = total) :
    Run total (if data.length = total then [] else flags) data ts l := by
  induction h generalizing data with
  | nil =>
    have hlength : data.length = total := hexact
    rw [if_pos hlength]
    exact .done hlength.ge
  | word hw hne _ ih =>
    have hmissing : data.length < total := hexact ▸ length_lt_expand data hne
    have hrest := ih hin hexact
    rw [if_neg hmissing.ne] at hrest
    rw [ite_self]
    exact .group hw hmissing hrest
  | token _ ih =>
    have hmissing : data.length < total :=
      hexact ▸ length_lt_expand data (cons_ne_nil _ _)
    rw [if_neg hmissing.ne]
    exact .token hin.1 (ih hin.2 hexact)

theorem Token.Grouped.group (ts : List Token) (h : Grouped flags us l) :
    Grouped (ts.map isCopy ++ flags) (ts ++ us) (ts.flatMap bytes ++ l) := by
  induction ts with
  | nil => exact h
  | cons t ts ih =>
    rw [flatMap_cons, append_assoc]
    exact .token ih

theorem Token.grouped_groups (ts : List Token) : Grouped [] ts (groups ts) := by
  fun_induction groups ts with
  | case1 ts hempty =>
    obtain rfl := List.isEmpty_iff.1 hempty
    exact .nil
  | case2 ts hempty ih =>
    have hne : ts ≠ [] := fun h => hempty (List.isEmpty_iff.2 h)
    have hlen : (ts.take 16).length ≤ 16 := length_take_le ..
    have hflags : flagWord (ts.take 16) < 0x10000 :=
      (flagWord_lt _).trans_le (Nat.pow_le_pow_right Nat.two_pos hlen)
    -- a group that is not full is the last one, so no flags are left before another group
    have hrest : Grouped (List.replicate (16 - (ts.take 16).length) false) (ts.drop 16)
        (groups (ts.drop 16)) := by
      by_cases hfull : 16 ≤ ts.length
      · rw [length_take, Nat.min_eq_left hfull]
        exact ih
      · rw [drop_eq_nil_of_le (Nat.le_of_not_le hfull), groups]
        exact .nil
    have hgroup := hrest.group (ts.take 16)
    rw [← flagsOf_flagWord hlen, take_append_drop] at hgroup
    exact .word hflags hne hgroup

/-! ### Reading tilesets -/

theorem Holds.header (hn : n ≤ 0xFFFF) (h : Holds image pos (b :: wordBytes n)) :
    ∃ hpos : pos + 2 < image.size,
      image[pos] = b ∧ image[pos + 1].toNat + 0x100 * image[pos + 2].toNat = n := by
  obtain ⟨_, hb⟩ := h.getElem
  obtain ⟨hpos, hword⟩ := h.tail.word (Nat.lt_succ_of_le hn)
  exact ⟨hpos, hb, hword⟩

theorem decode_of_run (hflag : flag ≠ 0) (htotal : total ≤ 0xFFFF) (hrun : Run total [] [] ts l)
    (hheld : Holds image pos (flag :: wordBytes total ++ l)) :
    decode image pos =
      .ok ⟨(expand [] ts).toArray, (flag :: wordBytes total ++ l).toByteArray⟩ := by
  obtain ⟨hheader, hrest⟩ := holds_append.1 hheld
  obtain ⟨hpos, hfirst, hword⟩ := hheader.header htotal
  have htokens : tokens image total (pos + 3) [] #[] =
      .ok ((expand [] ts).toArray, pos + 3 + l.length) := tokens_of_run hrun hrest
  have hstop : pos + 3 + l.length = pos + (flag :: wordBytes total ++ l).length := by
    rw [length_append, Nat.add_assoc]
    rfl
  rw [decode, dif_pos hpos]
  simp only [hfirst, hword, if_neg hflag]
  rw [htokens, hstop, ← hheld.extract]
  rfl

/-- **Tokens are decoded to the data that they write**, wherever in an image they stand. -/
theorem decode_stored (hin : AllWithin [] ts) (hsize : (expand [] ts).length ≤ 0xFFFF)
    (hheld : Holds image pos (stored ts)) :
    decode image pos = .ok ⟨(expand [] ts).toArray, (stored ts).toByteArray⟩ := by
  have hrun := (grouped_groups ts).run hin rfl
  rw [ite_self] at hrun
  exact decode_of_run (by decide) hsize hrun hheld

theorem decode_plain (hsize : l.length ≤ 0xFFFF)
    (hheld : Holds image pos (0 :: wordBytes l.length ++ l)) :
    decode image pos = .ok ⟨l.toArray, (0 :: wordBytes l.length ++ l).toByteArray⟩ := by
  obtain ⟨hheader, hdata⟩ := holds_append.1 hheld
  obtain ⟨hpos, hflag, htotal⟩ := hheader.header hsize
  have hdata : Holds image (pos + 3) l := hdata
  have hend : pos + 3 + l.length ≤ image.size := by
    have := hdata.length_le
    omega
  have hstop : pos + 3 + l.length = pos + (0 :: wordBytes l.length ++ l).length := by
    rw [length_append, Nat.add_assoc]
    rfl
  rw [decode, dif_pos hpos]
  simp only [hflag, htotal, if_true]
  rw [if_pos hend, hdata.extract, data_toByteArray, hstop, hheld.extract]

theorem encode_eq_ok {data : ByteArray} (h : data.size ≤ 0xFFFF) :
    encode data = .ok (0 :: wordBytes data.size ++ data.data.toList).toByteArray := by
  rw [encode, if_neg (Nat.not_lt.2 h)]
  simp only [Except.ok.injEq]
  apply ByteArray.ext
  simp [wordBytes]

theorem holds_toByteArray (l : List UInt8) : Holds l.toByteArray 0 l := by
  rw [Holds, data_toByteArray, drop_zero]

/-- **Decoding inverts every way to store data.**  Tokens that reach back no further than to the
start of the data are decoded to the data that they write, wherever in an image they stand.  Data is
stored as it is exactly if its size fits a word, and it comes back. -/
theorem decode_stored_and_encode :
    (∀ (image : ByteArray) (pos : Nat) (ts : List Token), Token.AllWithin [] ts →
      (Token.expand [] ts).length ≤ 0xFFFF → Holds image pos (Token.stored ts) →
        decode image pos = .ok ⟨(Token.expand [] ts).toArray, (Token.stored ts).toByteArray⟩) ∧
    ∀ data : ByteArray,
      (data.size ≤ 0xFFFF →
        ∃ stored, encode data = .ok stored ∧ decode stored 0 = .ok ⟨data.data, stored⟩) ∧
      (encode data = .error (.plain .overflow) ↔ 0xFFFF < data.size) := by
  refine ⟨fun image pos ts => decode_stored, fun data => ⟨fun hsize => ?_, ?_⟩⟩
  · exact ⟨_, encode_eq_ok hsize, decode_plain hsize (holds_toByteArray _)⟩
  · constructor
    · intro h
      by_contra hsize
      rw [encode_eq_ok (Nat.le_of_not_lt hsize)] at h
      simp at h
    · intro hsize
      exact if_pos hsize

/-- Two groups.  The first match repeats one byte five times, and the last token is a match inside a
group that is not full. -/
theorem decode_stored_two_groups :
    let ts : List Token :=
      [.literal 7, .copy ⟨0, 5, by decide, by decide, by decide⟩, .literal 9] ++
      List.replicate 14 (.literal 3) ++ [.copy ⟨1, 34, by decide, by decide, by decide⟩]
    let stored : List UInt8 := [1, 55, 0, 0x02, 0x00, 7, 0x00, 0x10, 9] ++ List.replicate 13 3 ++
      [0x02, 0x00, 3, 0x01, 0xF8]
    let data : List UInt8 := List.replicate 6 7 ++ 9 :: List.replicate 48 3
    Token.AllWithin [] ts ∧ Token.stored ts = stored ∧
      decode (0xAA :: stored ++ [0xBB]).toByteArray 1 = .ok ⟨data.toArray, stored.toByteArray⟩ := by
  intro ts stored data
  have hin : Token.AllWithin [] ts := by decide
  have hstored : Token.stored ts = stored := by cbv
  have hdata : Token.expand [] ts = data := by decide
  have hheld : Holds (0xAA :: stored ++ [0xBB]).toByteArray 1 (Token.stored ts) := by
    rw [hstored]
    exact List.prefix_append stored [0xBB]
  have h := decode_stored_and_encode.1 _ 1 ts hin (by decide) hheld
  rw [hdata, hstored] at h
  exact ⟨hin, hstored, h⟩

end Cartridge.Tileset
