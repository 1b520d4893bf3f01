import Mathlib
import Cartridge.Proofs.Fault
import Cartridge.Proofs.Tileset.Tokens

/-!
# How reading a tileset fails

Reading a stored tileset gives data, or it fails in one of two ways: the image ends inside the
tileset, or a match reaches back before the start of the data (`decode_cases`).

Main result: `decode_fails_iff`.
-/

namespace Cartridge.Tileset

variable {image : ByteArray} {pos start total n : Nat} {data : List UInt8}

theorem Token.bytes_ne_nil (t : Token) : t.bytes ≠ [] := by
  cases t with
  | literal b | copy m => exact List.cons_ne_nil _ _

def matchOf (word : Nat) (h : word < 0x10000) : Match where
  back := word % 0x800
  length := word / 0x800 + 3
  back_lt := Nat.mod_lt _ (by decide)
  three_le := Nat.le_add_left 3 _
  length_le := by omega

theorem bytes_matchOf (word : Nat) (h : word < 0x10000) :
    (Token.copy (matchOf word h)).bytes = wordBytes word := by
  rw [Token.bytes, matchOf, Nat.add_sub_cancel, Nat.mod_add_div]

/-! ### Points of a reading -/

/-- A point in packed data that is being read: the position, the flags that are left of the group at
hand, and the data so far. -/
structure Reading where
  pos : Nat
  flags : List Bool
  data : List UInt8

namespace Reading

variable {r r' : Reading}

/-- What is read next, and where that leads. -/
inductive Step (image : ByteArray) (total : Nat) : Reading → Reading → Prop
  | group {pos w : Nat} {data : List UInt8} (hmissing : data.length < total) (hw : w < 0x10000)
      (hheld : Holds image pos (wordBytes w)) :
    Step image total ⟨pos, [], data⟩ ⟨pos + 2, flagsOf w, data⟩
  | token {pos : Nat} {flags : List Bool} {data : List UInt8} {t : Token}
      (hheld : Holds image pos t.bytes) (hin : t.Within data.length) :
    Step image total ⟨pos, t.isCopy :: flags, data⟩
      ⟨pos + t.bytes.length, if (t.write data).length = total then [] else flags, t.write data⟩

def Done (total : Nat) (r : Reading) : Prop := r.flags = [] ∧ total ≤ r.data.length

def need (total : Nat) (r : Reading) : Nat :=
  match r.flags with
  | [] => if r.data.length < total then 2 else 0
  | false :: _ => 1
  | true :: _ => 2

/-- What is read next runs past the end of the image. -/
def Short (image : ByteArray) (total : Nat) (r : Reading) : Prop :=
  0 < r.need total ∧ image.size < r.pos + r.need total

/-- A match is next, and the place that it copies from is negative. -/
def Stray (image : ByteArray) (r : Reading) : Prop :=
  ∃ flags m, r.flags = true :: flags ∧ Holds image r.pos (Token.copy m).bytes ∧
    (r.data.length : Int) - 1 - m.back < 0

def result (image : ByteArray) (total : Nat) (r : Reading) :
    Except DecodeError (Array UInt8 × Nat) :=
  tokens image total r.pos r.flags r.data.toArray

theorem result_of_step (h : Step image total r r') :
    r.result image total = r'.result image total := by
  cases h with
  | group hmissing hw hheld => exact tokens_nil hw hheld hmissing
  | token hheld hin => exact tokens_cons hheld hin

theorem result_of_done (h : r.Done total) : r.result image total = .ok (r.data.toArray, r.pos) := by
  obtain ⟨pos, flags, data⟩ := r
  obtain ⟨rfl, hfull⟩ := h
  rw [result, tokens, List.size_toArray, if_neg (Nat.not_lt.2 hfull)]

theorem result_of_short (h : r.Short image total) : r.result image total = .error .truncated := by
  obtain ⟨pos, flags, data⟩ := r
  change tokens image total pos flags data.toArray = _
  cases flags with
  | nil =>
    by_cases hmissing : data.length < total
    · simp only [Short, need, if_pos hmissing] at h
      rw [tokens, List.size_toArray, if_pos hmissing, dif_neg (by omega)]
    · simp only [Short, need, if_neg hmissing] at h
      exact absurd h.1 (Nat.lt_irrefl 0)
  | cons flag flags =>
    cases flag with
    | false =>
      simp only [Short, need] at h
      rw [tokens, dif_neg (by omega)]
    | true =>
      simp only [Short, need] at h
      rw [tokens, dif_neg (by omega)]

theorem result_of_stray (h : r.Stray image) : r.result image total = .error .beforeStart := by
  obtain ⟨pos, flags, data⟩ := r
  obtain ⟨rest, m, rfl, hheld, hstray⟩ := h
  obtain ⟨_, hpos, w, hword, hback, -⟩ := hheld.copy
  have hbefore : data.length < m.back + 1 := by
    change (data.length : Int) - 1 - m.back < 0 at hstray
    omega
  change tokens image total pos (true :: rest) data.toArray = _
  rw [tokens, dif_pos hpos]
  simp only [hword, hback, List.size_toArray, if_pos hbefore]

/-- **Every point** is left by a step, or it is one of the three at which reading ends. -/
theorem step_or_end (image : ByteArray) (total : Nat) (r : Reading) :
    (∃ r', Step image total r r') ∨ r.Done total ∨ r.Short image total ∨ r.Stray image := by
  obtain ⟨pos, flags, data⟩ := r
  by_cases hshort : Short image total ⟨pos, flags, data⟩
  · exact .inr (.inr (.inl hshort))
  · cases flags with
    | nil =>
      by_cases hmissing : data.length < total
      · have hpos : pos + 1 < image.size := by
          simp only [Short, need, if_pos hmissing] at hshort
          omega
        have hfirst := image[pos].toNat_lt
        have hsecond := image[pos + 1].toNat_lt
        exact .inl ⟨_, .group hmissing (by omega) (holds_wordBytes (by omega) hpos)⟩
      · exact .inr (.inl ⟨rfl, Nat.le_of_not_lt hmissing⟩)
    | cons flag flags =>
      cases flag with
      | false =>
        have hpos : pos < image.size := by
          simp only [Short, need] at hshort
          omega
        have hheld : Holds image pos (Token.literal image[pos]).bytes := holds_singleton hpos
        exact .inl ⟨_, .token hheld trivial⟩
      | true =>
        have hpos : pos + 1 < image.size := by
          simp only [Short, need] at hshort
          omega
        have hfirst := image[pos].toNat_lt
        have hsecond := image[pos + 1].toNat_lt
        have hw : image[pos].toNat + 0x100 * image[pos + 1].toNat < 0x10000 := by omega
        have hheld : Holds image pos (Token.copy (matchOf _ hw)).bytes := by
          rw [bytes_matchOf]
          exact holds_wordBytes (by omega) hpos
        by_cases hin : (matchOf _ hw).back + 1 ≤ data.length
        · exact .inl ⟨_, .token hheld hin⟩
        · exact .inr (.inr (.inr ⟨flags, _, rfl, hheld, by simp only; omega⟩))

/-! ### Readings end -/

theorem pos_lt_of_step (h : Step image total r r') : r.pos < r'.pos ∧ r'.pos ≤ image.size := by
  cases h with
  | @group pos w data hmissing hw hheld =>
    obtain ⟨hpos, -⟩ := hheld.word hw
    exact ⟨Nat.lt_add_of_pos_right Nat.two_pos, hpos⟩
  | @token pos flags data t hheld hin =>
    have hsome := List.length_pos_iff.2 t.bytes_ne_nil
    have hle := hheld.length_le
    exact ⟨Nat.lt_add_of_pos_right hsome, by simp only; omega⟩

/-- **No reading goes on for ever.** -/
theorem wellFounded_step (image : ByteArray) (total : Nat) :
    WellFounded fun r' r => Step image total r r' := by
  refine Subrelation.wf (r := InvImage (· < ·) fun r : Reading => image.size - r.pos) ?_
    (InvImage.wf _ wellFounded_lt)
  intro r' r h
  obtain ⟨hlt, hle⟩ := pos_lt_of_step h
  change image.size - r'.pos < image.size - r.pos
  omega

def Reaches (image : ByteArray) (total : Nat) : Reading → Reading → Prop :=
  Relation.ReflTransGen (Step image total)

theorem result_of_reaches (h : Reaches image total r r') :
    r.result image total = r'.result image total := by
  induction h with
  | refl => rfl
  | tail _ hstep ih => exact ih.trans (result_of_step hstep)

theorem exists_end (image : ByteArray) (total : Nat) (r : Reading) :
    ∃ r', Reaches image total r r' ∧ (r'.Done total ∨ r'.Short image total ∨ r'.Stray image) := by
  induction r using (wellFounded_step image total).induction with
  | _ r ih =>
    obtain ⟨r', hstep⟩ | hend := step_or_end image total r
    · obtain ⟨last, hreach, hend⟩ := ih r' hstep
      exact ⟨last, .head hstep hreach, hend⟩
    · exact ⟨r, .refl, hend⟩

theorem exists_run (h : Reaches image total r r') (hdone : r'.Done total) :
    ∃ ts l, Run total r.flags r.data ts l ∧ Holds image r.pos l := by
  induction h using Relation.ReflTransGen.head_induction_on with
  | refl =>
    obtain ⟨pos, flags, data⟩ := r'
    obtain ⟨rfl, hfull⟩ := hdone
    exact ⟨[], [], .done hfull, List.nil_prefix⟩
  | head hstep _ ih =>
    obtain ⟨ts, l, hrun, hheld⟩ := ih
    cases hstep with
    | group hmissing hw hword =>
      exact ⟨ts, _, .group hw hmissing hrun, holds_append.2 ⟨hword, hheld⟩⟩
    | token hfirst hin => exact ⟨_, _, .token hin hrun, holds_append.2 ⟨hfirst, hheld⟩⟩

end Reading

/-! ### Copying -/

theorem size_copyFrom (start n : Nat) (data : Array UInt8) :
    (copyFrom start n data).size = data.size + n := by
  induction n generalizing start data with
  | zero => rfl
  | succ n ih =>
    rw [copyFrom, ih, Array.size_push]
    omega

theorem copyFrom_succ (start n : Nat) (data : Array UInt8) : copyFrom start (n + 1) data =
    (copyFrom start n data).push ((copyFrom start n data).getD (start + n) 0) := by
  induction n generalizing start data with
  | zero => rfl
  | succ n ih =>
    rw [copyFrom, ih, Nat.add_right_comm start 1 n]
    rfl

/-- **The byte that is copied next is there**, however far the copy has run into its own bytes. -/
theorem exists_copied {data : Array UInt8} (h : start < data.size) (n : Nat) :
    ∃ b, (copyFrom start n data)[start + n]? = some b ∧
      copyFrom start (n + 1) data = (copyFrom start n data).push b := by
  have hin : start + n < (copyFrom start n data).size := by
    rw [size_copyFrom]
    omega
  refine ⟨_, Array.getElem?_eq_getElem hin, ?_⟩
  rw [copyFrom_succ, Array.getD_eq_getD_getElem?, Array.getElem?_eq_getElem hin, Option.getD_some]

/-! ### Whole tilesets -/

/-- The stored form of a tileset is a header and just the bytes that its data is read from. -/
inductive Decoded.Whole : Decoded → Prop
  /-- The data stands as it is. -/
  | plain {data : List UInt8} (hsize : data.length ≤ 0xFFFF) :
    Whole ⟨data.toArray, (0 :: wordBytes data.length ++ data).toByteArray⟩
  /-- The data is written by tokens. -/
  | packed {flag : UInt8} {total : Nat} {ts : List Token} {l : List UInt8} (hflag : flag ≠ 0)
      (htotal : total ≤ 0xFFFF) (hrun : Run total [] [] ts l) :
    Whole ⟨(Token.expand [] ts).toArray, (flag :: wordBytes total ++ l).toByteArray⟩

/-- Something of the tileset at a place lies past the end of the image: its header, the data that
stands as it is, or what is to be read at some point of its packed data. -/
inductive RunsOut (image : ByteArray) (start : Nat) : Prop
  | header (hshort : image.size < start + 3)
  | plain {total : Nat} (htotal : total ≤ 0xFFFF)
      (hheader : Holds image start (0 :: wordBytes total))
      (hshort : image.size < start + 3 + total)
  | packed {flag : UInt8} {total : Nat} {r : Reading} (hflag : flag ≠ 0) (htotal : total ≤ 0xFFFF)
      (hheader : Holds image start (flag :: wordBytes total))
      (hreach : Reading.Reaches image total ⟨start + 3, [], []⟩ r) (hshort : r.Short image total)

/-- Reading the tileset at a place comes to a match that reaches back before the start of the
data. -/
inductive LeadsBack (image : ByteArray) (start : Nat) : Prop
  | packed {flag : UInt8} {total : Nat} {r : Reading} (hflag : flag ≠ 0) (htotal : total ≤ 0xFFFF)
      (hheader : Holds image start (flag :: wordBytes total))
      (hreach : Reading.Reaches image total ⟨start + 3, [], []⟩ r) (hstray : r.Stray image)

theorem holds_header (hflag : start < image.size) (hfirst : start + 1 < image.size)
    (hpos : start + 2 < image.size) : Holds image start (image[start] ::
      wordBytes (image[start + 1].toNat + 0x100 * image[start + 2].toNat)) :=
  holds_append (l := [image[start]]).2 ⟨holds_singleton hflag, holds_wordBytes hfirst hpos⟩

theorem exists_holds (h : pos + n ≤ image.size) :
    ∃ l, l.length = n ∧ Holds image pos l := by
  refine ⟨(image.data.toList.drop pos).take n, ?_, List.take_prefix ..⟩
  have hsize : image.data.toList.length = image.size := Array.length_toList
  rw [List.length_take, List.length_drop]
  omega

theorem exists_header (h : start + 2 < image.size) :
    ∃ flag total, total ≤ 0xFFFF ∧ Holds image start (flag :: wordBytes total) := by
  refine ⟨_, _, ?_, holds_header (by omega) (by omega) h⟩
  have hlow := image[start + 1].toNat_lt
  have hhigh := image[start + 2].toNat_lt
  omega

theorem decode_of_packed {flag : UInt8} (hflag : flag ≠ 0) (htotal : total ≤ 0xFFFF)
    (hheader : Holds image start (flag :: wordBytes total)) :
    decode image start = (fun e => ⟨e.1, image.extract start e.2⟩) <$>
      Reading.result image total ⟨start + 3, [], []⟩ := by
  obtain ⟨hpos, hfirst, hword⟩ := hheader.header htotal
  rw [decode, dif_pos hpos]
  simp only [hfirst, hword, if_neg hflag, Reading.result]
  rcases tokens image total (start + 3) [] #[] with _ | _ <;> rfl

theorem RunsOut.decode_eq (h : RunsOut image start) : decode image start = .error .truncated := by
  cases h with
  | header hshort => rw [decode, dif_neg (by omega)]
  | plain htotal hheader hshort =>
    obtain ⟨hpos, hfirst, hword⟩ := hheader.header htotal
    rw [decode, dif_pos hpos]
    simp only [hfirst, hword, if_true, if_neg (Nat.not_le.2 hshort)]
  | packed hflag htotal hheader hreach hshort =>
    rw [decode_of_packed hflag htotal hheader, Reading.result_of_reaches hreach,
      Reading.result_of_short hshort]
    rfl

theorem LeadsBack.decode_eq (h : LeadsBack image start) :
    decode image start = .error .beforeStart := by
  obtain ⟨hflag, htotal, hheader, hreach, hstray⟩ := h
  rw [decode_of_packed hflag htotal hheader, Reading.result_of_reaches hreach,
    Reading.result_of_stray hstray]
  rfl

/-- **What comes of reading**: a whole tileset whose bytes stand in the image, or a failure. -/
theorem decode_cases (image : ByteArray) (start : Nat) :
    (∃ d, decode image start = .ok d ∧ d.Whole ∧ Holds image start d.stored.data.toList) ∨
      RunsOut image start ∨ LeadsBack image start := by
  by_cases hpos : start + 2 < image.size
  · obtain ⟨flag, total, htotal, hheader⟩ := exists_header hpos
    by_cases hflag : flag = 0
    · subst hflag
      by_cases hend : start + 3 + total ≤ image.size
      · obtain ⟨data, rfl, hdata⟩ := exists_holds hend
        have hheld := holds_append.2 ⟨hheader, hdata⟩
        exact .inl ⟨_, decode_plain htotal hheld, .plain htotal, by rwa [List.data_toByteArray]⟩
      · exact .inr (.inl (.plain htotal hheader (Nat.lt_of_not_le hend)))
    · obtain ⟨r, hreach, hdone | hshort | hstray⟩ :=
        Reading.exists_end image total ⟨start + 3, [], []⟩
      · obtain ⟨ts, l, hrun, hrest⟩ := Reading.exists_run hreach hdone
        have hheld := holds_append.2 ⟨hheader, hrest⟩
        exact .inl ⟨_, decode_of_run hflag htotal hrun hheld, .packed hflag htotal hrun,
          by rwa [List.data_toByteArray]⟩
      · exact .inr (.inl (.packed hflag htotal hheader hreach hshort))
      · exact .inr (.inr (.packed hflag htotal hheader hreach hstray))
  · exact .inr (.inl (.header (by omega)))

theorem decode_eq_truncated_iff : decode image start = .error .truncated ↔ RunsOut image start := by
  refine ⟨fun h => ?_, RunsOut.decode_eq⟩
  obtain ⟨d, hd, -⟩ | hout | hback := decode_cases image start
  · cases hd.symm.trans h
  · exact hout
  · cases hback.decode_eq.symm.trans h

theorem decode_eq_beforeStart_iff :
    decode image start = .error .beforeStart ↔ LeadsBack image start := by
  refine ⟨fun h => ?_, LeadsBack.decode_eq⟩
  obtain ⟨d, hd, -⟩ | hout | hback := decode_cases image start
  · cases hd.symm.trans h
  · cases hout.decode_eq.symm.trans h
  · exact hback

/-- **The two failures.**  Reading a tileset fails exactly if something of it lies past the end of
the image or a match in it reaches back before the start of the data, with a fault of its own for
each.  No reading goes on for ever, and whenever a match copies a byte, the byte is there. -/
theorem decode_fails_iff (image : ByteArray) (start : Nat) :
    (∀ fault, (decode image start).mapError DecodeError.fault = .error fault ↔
      fault = .plain .field ∧ RunsOut image start ∨ fault = .notAReport ∧ LeadsBack image start) ∧
    (∀ total, WellFounded fun r' r => Reading.Step image total r r') ∧
    ∀ (m : Match) (data : Array UInt8), m.back + 1 ≤ data.size → ∀ j < m.length,
      ∃ b, (copyFrom (data.size - (m.back + 1)) j data)[data.size - (m.back + 1) + j]? = some b ∧
        copyFrom (data.size - (m.back + 1)) (j + 1) data =
          (copyFrom (data.size - (m.back + 1)) j data).push b := by
  refine ⟨fun fault => ?_, Reading.wellFounded_step image, fun m data hin j _ => ?_⟩
  · rw [← decode_eq_truncated_iff, ← decode_eq_beforeStart_iff]
    cases decode image start with
    | ok d => simp [Except.mapError]
    | error e =>
      cases e with
      | truncated => simp [Except.mapError, DecodeError.fault, eq_comm]
      | beforeStart => simp [Except.mapError, DecodeError.fault, eq_comm]
  · exact exists_copied (by omega) j

/-- A literal and then half a match; a match before any data; and a match of five bytes that runs
over two of its own. -/
theorem decode_fails_thrice :
    RunsOut [1, 9, 0, 2, 0, 7, 0].toByteArray 0 ∧ LeadsBack [1, 9, 0, 1, 0, 0, 0].toByteArray 0 ∧
      ∃ b, (copyFrom 0 4 #[7, 8, 9])[4]? = some b ∧
        copyFrom 0 5 #[7, 8, 9] = (copyFrom 0 4 #[7, 8, 9]).push b := by
  have hcut : decode [1, 9, 0, 2, 0, 7, 0].toByteArray 0 = .error .truncated := by cbv
  have hback : decode [1, 9, 0, 1, 0, 0, 0].toByteArray 0 = .error .beforeStart := by cbv
  have hfirst := ((decode_fails_iff [1, 9, 0, 2, 0, 7, 0].toByteArray 0).1 (.plain .field)).1
    (by rw [hcut]; rfl)
  have hsecond := ((decode_fails_iff [1, 9, 0, 1, 0, 0, 0].toByteArray 0).1 .notAReport).1
    (by rw [hback]; rfl)
  obtain ⟨-, hcut⟩ | ⟨hfault, -⟩ := hfirst
  · obtain ⟨hfault, -⟩ | ⟨-, hback⟩ := hsecond
    · exact absurd hfault (by decide)
    · exact ⟨hcut, hback, (decode_fails_iff .empty 0).2.2
        ⟨2, 5, by decide, by decide, by decide⟩ #[7, 8, 9] (by decide) 4 (by decide)⟩
  · exact absurd hfault (by decide)

end Cartridge.Tileset
