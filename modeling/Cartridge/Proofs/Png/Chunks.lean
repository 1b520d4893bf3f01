import Cartridge.Png.Reader
import Cartridge.Proofs.Fault
import Mathlib.Tactic.Ring

/-!
# Chunks are read back

A reader that comes to a chunk as it is written by `Chunk.encode` gives this chunk and comes to
what follows it.  `Reader.Comes` says which chunks a reader comes to; it does not matter whether the
reader has looked at the head of the next one already.

* `ofBigEndian_bigEndian`: a number that fits its field is read back.
* `Reader.on_head`, `Reader.on_chunk`: the next chunk.
* `Reader.on_preambleWithin_cons`, `Reader.on_preambleWithin_data`: chunks are taken until image
  data comes.
-/

open List

namespace Cartridge.Png

open Scan Chunk

variable {α β : Type} {a : α} {r r' r₁ : Reader} {l rest : List UInt8} {c : Chunk} {cs : List Chunk}
  {lenient : Bool} {x : Scan α}

/-! ### Numbers in fields -/

@[simp] theorem length_bigEndian (n x : Nat) : (bigEndian n x).length = n := by
  induction n with
  | zero => rfl
  | succ n ih => rw [bigEndian, length_cons, ih]

theorem foldl_bigEndian (n x start : Nat) :
    (bigEndian n x).foldl (fun n b => n * 0x100 + b.toNat) start =
      start * 0x100 ^ n + x % 0x100 ^ n := by
  induction n generalizing start with
  | zero => simp [bigEndian, Nat.mod_one]
  | succ n ih =>
    have hdigit : (x / Nat.pow 0x100 n % 0x100).toUInt8.toNat = x / 0x100 ^ n % 0x100 := by simp
    rw [bigEndian, foldl_cons, ih, hdigit, Nat.mod_pow_succ]
    ring

theorem ofBigEndian_bigEndian {n x : Nat} (h : x < 0x100 ^ n) :
    ofBigEndian (bigEndian n x) = x := by
  rw [ofBigEndian, foldl_bigEndian, Nat.zero_mul, Nat.zero_add, Nat.mod_eq_of_lt h]

/-! ### Runs of a reader -/

namespace Scan

/-- The outcome of a computation on a reader, and the reader that it leaves. -/
def on (x : Scan α) (r : Reader) : Except Fault α × Reader := x.run.run r

theorem on_bind (x : Scan α) (next : α → Scan β) (r : Reader) :
    (x >>= next).on r =
      match x.on r with
      | (.ok a, r') => (next a).on r'
      | (.error f, r') => (.error f, r') := by
  simp only [on, ExceptT.run_bind, StateT.run_bind]
  rcases x.run.run r with ⟨_ | _, _⟩ <;> rfl

theorem on_bind_of_ok (h : x.on r = (.ok a, r')) (next : α → Scan β) :
    (x >>= next).on r = (next a).on r' := by rw [on_bind, h]

theorem on_bind_of_error {fault : Fault} (h : x.on r = (.error fault, r')) (next : α → Scan β) :
    (x >>= next).on r = (.error fault, r') := by rw [on_bind, h]

@[simp] theorem on_pure (a : α) (r : Reader) : (pure a : Scan α).on r = (.ok a, r) := rfl

theorem on_lift {x : Except Fault α} (h : x = .ok a) (r : Reader) : (lift x).on r = (.ok a, r) := by
  subst h
  rfl

@[simp] theorem on_get (r : Reader) : (get : Scan Reader).on r = (.ok r, r) := rfl

@[simp] theorem on_modify (f : Reader → Reader) (r : Reader) :
    (modify f : Scan PUnit).on r = (.ok (), f r) := rfl

theorem on_demand {o : Option α} (h : o = some a) (f : Fault) (r : Reader) :
    (demand o f : Scan α).on r = (.ok a, r) := by
  subst h
  rfl

theorem on_header {h : Header} (hheader : r.header = some h) : header.on r = (.ok h, r) := by
  rw [header, on_bind_of_ok (on_get r), on_demand hheader]

theorem on_layout {l : Layout} (hlayout : r.layout = some l) : layout.on r = (.ok l, r) := by
  rw [layout, on_bind_of_ok (on_get r), on_demand hlayout]

theorem on_take {n : Nat} (hn : l.length = n) (h : r.data.data.toList.drop r.pos = l ++ rest) :
    (take n).on r = (.ok l, { r with pos := r.pos + n }) := by
  have hleft : r.data.size - r.pos = n + rest.length := by
    have := congrArg List.length h
    rwa [length_drop, length_append, hn] at this
  have hbytes : (r.data.extract r.pos (min (r.pos + n) r.data.size)).data.toList = l := by
    rw [ByteArray.data_extract, Array.toList_extract, extract_eq_take_drop, h]
    exact take_left' (by omega)
  have hpos : max r.pos (min (r.pos + n) r.data.size) = r.pos + n := by omega
  have hon : (take n).on r =
      (.ok (r.data.extract r.pos (min (r.pos + n) r.data.size)).data.toList,
        { r with pos := max r.pos (min (r.pos + n) r.data.size) }) := rfl
  rw [hon, hbytes, hpos]

end Scan

/-! ### Chunks -/

/-- A chunk that fits its fields. -/
structure Chunk.Sound (c : Chunk) : Prop where
  tag : c.tag.length = 4
  data : c.data.length ≤ longestData

def Chunk.tail (c : Chunk) : List UInt8 := c.data ++ bigEndian 4 (checkOf c.tag c.data).toNat

theorem Chunk.encode_eq (c : Chunk) :
    c.encode = (bigEndian 4 c.data.length ++ c.tag) ++ c.tail := by
  simp [encode, tail]

namespace Reader

/-- The reader has seen the signature and comes to the given chunks. -/
inductive Comes : Reader → List Chunk → Prop
  | before {r : Reader} {cs : List Chunk} (hsignature : r.signature ≠ []) (hhead : r.pending = none)
      (h : r.data.data.toList.drop r.pos = cs.flatMap encode) : Comes r cs
  | inside {r : Reader} {c : Chunk} {cs : List Chunk} (hsignature : r.signature ≠ [])
      (hhead : r.pending = some (c.data.length, c.tag))
      (h : r.data.data.toList.drop r.pos = c.tail ++ cs.flatMap encode) : Comes r (c :: cs)

theorem on_checkSignature (h : r.signature ≠ []) : checkSignature.on r = (.ok (), r) := by
  rw [checkSignature, on_bind_of_ok (on_get r)]
  simp [h]

theorem Comes.signature_ne (h : Comes r cs) : r.signature ≠ [] := by
  cases h <;> assumption

theorem Comes.of_same (h : Comes r cs) (hdata : r'.data = r.data) (hpos : r'.pos = r.pos)
    (hsignature : r'.signature = r.signature) (hhead : r'.pending = r.pending) : Comes r' cs := by
  rcases h with ⟨hseen, hnone, h⟩ | ⟨hseen, hsome, h⟩
  · exact .before (hsignature ▸ hseen) (hhead.trans hnone) (by rw [hdata, hpos, h])
  · exact .inside (hsignature ▸ hseen) (hhead.trans hsome) (by rw [hdata, hpos, h])

theorem on_nextHead (hc : c.Sound)
    (h : r.data.data.toList.drop r.pos = bigEndian 4 c.data.length ++ c.tag ++ rest) :
    nextHead.on r = (.ok (some (c.data.length, c.tag)), { r with pos := r.pos + 8 }) := by
  have hhead : (bigEndian 4 c.data.length ++ c.tag).length = 8 := by simp [hc.tag]
  have hsize : c.data.length < 0x100 ^ 4 := Nat.lt_of_le_of_lt hc.data (by decide)
  rw [nextHead, on_bind_of_ok (on_take hhead h)]
  have hlength : ofBigEndian ((bigEndian 4 c.data.length ++ c.tag).take 4) = c.data.length := by
    rw [take_left' (length_bigEndian ..), ofBigEndian_bigEndian hsize]
  have htag : (bigEndian 4 c.data.length ++ c.tag).drop 4 = c.tag :=
    drop_left' (length_bigEndian ..)
  have hne : (bigEndian 4 c.data.length ++ c.tag).isEmpty = false := by
    rw [isEmpty_eq_false_iff, ← length_pos_iff, hhead]
    decide
  simp only [hlength, htag, hne, hhead, Nat.not_lt.2 hc.data]
  rfl

theorem on_head_eq (h : r.pending = none) :
    head.on r = (nextHead >>= fun h => do
      modify fun r => { r with pending := h }
      return h).on r := by
  rw [head, on_bind_of_ok (on_get r), h]

theorem on_head_start (hc : c.Sound) (hhead : r.pending = none)
    (h : r.data.data.toList.drop r.pos = bigEndian 4 c.data.length ++ c.tag ++ rest) :
    head.on r = (.ok (some (c.data.length, c.tag)),
        { r with pos := r.pos + 8, pending := some (c.data.length, c.tag) }) ∧
      r.data.data.toList.drop (r.pos + 8) = rest := by
  constructor
  · rw [on_head_eq hhead, on_bind_of_ok (on_nextHead hc h),
      on_bind_of_ok (on_modify ..), on_pure]
  · rw [← drop_drop, h]
    exact drop_left' (by simp [hc.tag])

theorem on_head (hc : c.Sound) (h : Comes r (c :: cs)) :
    ∃ pos, head.on r =
        (.ok (some (c.data.length, c.tag)), { r with pos, pending := some (c.data.length, c.tag) }) ∧
      r.data.data.toList.drop pos = c.tail ++ cs.flatMap encode := by
  rcases h with ⟨-, hhead, h⟩ | ⟨-, hhead, h⟩
  · rw [flatMap_cons, encode_eq, append_assoc] at h
    exact ⟨_, on_head_start hc hhead h⟩
  · refine ⟨r.pos, ?_, h⟩
    rw [head, on_bind_of_ok (on_get r), hhead]
    simp [← hhead]

theorem on_body {pos : Nat} (hhead : head.on r =
      (.ok (some (c.data.length, c.tag)), { r with pos, pending := some (c.data.length, c.tag) }))
    (h : r.data.data.toList.drop pos = c.tail ++ rest) :
    ∃ pos, body.on r =
        (.ok (c, (checkOf c.tag c.data).toNat), { r with pos, pending := none }) ∧
      r.data.data.toList.drop pos = rest := by
  rw [Chunk.tail, append_assoc] at h
  have hcheck : (checkOf c.tag c.data).toNat < 0x100 ^ 4 := UInt32.toNat_lt _
  -- The state is named after each step, since each step reads from where the one before stopped.
  set r₁ : Reader := { r with pos, pending := none } with hr₁
  have hdata : (Scan.take c.data.length).on r₁ = (.ok c.data, _) := on_take rfl h
  set r₂ : Reader := { r₁ with pos := r₁.pos + c.data.length } with hr₂
  have h₂ : r₂.data.data.toList.drop r₂.pos = bigEndian 4 (checkOf c.tag c.data).toNat ++ rest := by
    rw [← drop_drop, hr₁, h, drop_left]
  have hsum : (Scan.take 4).on r₂ = (.ok (bigEndian 4 (checkOf c.tag c.data).toNat), _) :=
    on_take (length_bigEndian ..) h₂
  refine ⟨pos + c.data.length + 4, ?_, ?_⟩
  · rw [body, on_bind_of_ok hhead, on_bind_of_ok (on_demand rfl _ _)]
    simp only [on_bind_of_ok (on_modify ..)]
    rw [on_bind_of_ok hdata]
    simp only [ne_eq, not_true, if_false]
    rw [on_bind_of_ok hsum]
    simp only [length_bigEndian, not_true, if_false, ofBigEndian_bigEndian hcheck]
    rfl
  · rw [← drop_drop]
    exact (congrArg (List.drop 4) h₂).trans (drop_left' (length_bigEndian ..))

theorem on_chunk_eq (lenient : Bool) (h : checkSignature.on r = (.ok (), r')) :
    (chunk none lenient).on r = (body >>= fun p => do
      verify p.1 p.2 lenient
      return p.1).on r' := by
  rw [chunk, on_bind_of_ok h, on_bind_of_ok (on_bind_of_ok (on_get r') _), find]
  simp only [if_true]

theorem on_chunk_of_body (lenient : Bool) (h : checkSignature.on r = (.ok (), r₁))
    (hbody : body.on r₁ = (.ok (c, (checkOf c.tag c.data).toNat), r')) :
    (chunk none lenient).on r = (.ok c, r') := by
  have hverify : (verify c (checkOf c.tag c.data).toNat lenient).on r' = (.ok (), r') := by
    simp [verify]
  rw [on_chunk_eq lenient h, on_bind_of_ok hbody, on_bind_of_ok hverify, on_pure]

theorem on_chunk (lenient : Bool) (hc : c.Sound) (h : Comes r (c :: cs)) :
    ∃ pos, (chunk none lenient).on r = (.ok c, { r with pos, pending := none }) ∧
      Comes { r with pos, pending := none } cs := by
  have hseen := h.signature_ne
  obtain ⟨pos, hhead, hdrop⟩ := on_head hc h
  obtain ⟨pos, hbody, hrest⟩ := on_body hhead hdrop
  exact ⟨pos, on_chunk_of_body lenient (on_checkSignature hseen) hbody, .before hseen rfl hrest⟩

theorem length_le_encode (cs : List Chunk) : cs.length ≤ (cs.flatMap encode).length := by
  induction cs with
  | nil => simp
  | cons c cs ih =>
    have hfirst : 0 < c.encode.length := by simp [encode]
    rw [flatMap_cons, length_append, length_cons]
    omega

theorem Comes.length_le (h : Comes r cs) : cs.length ≤ r.data.size := by
  have hsize : r.data.data.toList.length = r.data.size := Array.length_toList
  rcases h with ⟨-, -, h⟩ | ⟨-, -, h⟩
  · have hlength := congrArg List.length h
    rw [length_drop] at hlength
    have := length_le_encode cs
    omega
  · rename_i c cs
    have hlength := congrArg List.length h
    rw [length_drop, length_append, Chunk.tail, length_append, length_bigEndian] at hlength
    have := length_le_encode cs
    rw [length_cons]
    omega

/-! ### The preamble -/

def begun (cs : List Chunk) : Reader :=
  { data := encodeFile cs, pos := 8, signature := Png.signature }

theorem on_checkSignature_start {data : ByteArray} (h : data.data.toList = Png.signature ++ rest) :
    checkSignature.on { data } = (.ok (), { data, pos := 8, signature := Png.signature }) := by
  have htake : (Scan.take 8).on { data } = (.ok Png.signature, _) := on_take rfl h
  rw [checkSignature, on_bind_of_ok (on_get _)]
  simp only [isEmpty_nil, if_true]
  rw [on_bind_of_ok htake]
  rfl

theorem on_checkSignature_encodeFile (cs : List Chunk) :
    checkSignature.on { data := encodeFile cs } = (.ok (), begun cs) := on_checkSignature_start rfl

theorem comes_begun (cs : List Chunk) : Comes (begun cs) cs := by
  have hlength : Png.signature.length = 8 := rfl
  exact .before (by simp [begun, Png.signature]) rfl (drop_left' hlength)

theorem on_preambleWithin_data (lenient : Bool) (fuel : Nat) (hc : c.Sound)
    (htag : c.tag = tagOf "IDAT") (h : Comes r (c :: cs)) :
    ∃ pos pending, (preambleWithin lenient (fuel + 1)).on r = (.ok (), { r with pos, pending }) ∧
      Comes { r with pos, pending } (c :: cs) := by
  obtain ⟨pos, hhead, hrest⟩ := on_head hc h
  refine ⟨pos, some (c.data.length, c.tag), ?_, .inside h.signature_ne rfl hrest⟩
  rw [preambleWithin, on_bind_of_ok hhead, on_bind_of_ok (on_demand rfl _ _)]
  simp only [htag, if_true, on_pure]

theorem on_preambleWithin_cons (lenient : Bool) (fuel : Nat) (hc : c.Sound)
    (htag : c.tag ≠ tagOf "IDAT") (h : Comes r (c :: cs)) :
    ∃ pos, (preambleWithin lenient (fuel + 1)).on r =
        (takeChunk c >>= fun _ => preambleWithin lenient fuel).on { r with pos, pending := none } ∧
      Comes { r with pos, pending := none } cs := by
  obtain ⟨pos, hhead, hrest⟩ := on_head hc h
  obtain ⟨pos', hchunk, hcomes⟩ := on_chunk lenient hc
    (.inside (r := { r with pos, pending := some (c.data.length, c.tag) }) h.signature_ne rfl hrest)
  refine ⟨pos', ?_, hcomes⟩
  rw [preambleWithin, on_bind_of_ok hhead, on_bind_of_ok (on_demand rfl _ _)]
  simp only [htag, if_false, on_bind_of_ok hchunk]

end Reader

end Cartridge.Png
