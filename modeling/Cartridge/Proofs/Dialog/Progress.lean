import Cartridge.Proofs.Dialog.Passes
import Mathlib.Logic.Relation
import Mathlib.Logic.Function.Iterate

/-!
# Scans that end

A scan reads one text after another.  The room of a text is guessed from the distance to the text of
the next pointer, so that a text ends before the next one begins.

* `Scan.endless_iff_diverges`: the bound on the number of texts is met by scans without an end alone.

Main result: `Slots.steady_iff`.
-/

open List

namespace Cartridge.Dialog

open Relation (ReflTransGen)

variable {place : Nat} {target : Int}

namespace Scan

variable {c : Course} {p q : Pointer} {s s' t : Scan} {x y : Pointer × Scan} {fuel : Nat}

/-! ### The texts that are read -/

/-- The text that is read next: the one known at the position at hand, else an unused one, unless
none is looked for any more. -/
def next? (c : Course) (s : Scan) : Option (Pointer × Scan) :=
  match s.textAt? s.pos with
  | some q => some (q, s)
  | none =>
    if c.last < s.pos then none
    else
      let q := Pointer.unused s.unused
      some (q, { s with places := s.places ++ [(q, (s.pos : Int))], unused := s.unused + 1 })

/-- One pass, and the text that is read after it. -/
def step? (c : Course) (x : Pointer × Scan) : Option (Pointer × Scan) :=
  match x.2.pass c x.1 with
  | .ok s => s.next? c
  | .error _ => none

/-- Reading the text `x` leads to reading the text `y` sooner or later. -/
def Leads (c : Course) (x y : Pointer × Scan) : Prop :=
  ReflTransGen (fun x y => step? c x = some y) x y

/-- A scan from `s` on reads the text of `p` at `t`. -/
def Reached (c : Course) (s : Scan) (p : Pointer) (t : Scan) : Prop :=
  ∃ q, s.textAt? s.pos = some q ∧ Leads c (q, s) (p, t)

def Diverges (c : Course) (s : Scan) : Prop :=
  ∃ q, s.textAt? s.pos = some q ∧
    ∃ texts : ℕ → Pointer × Scan, texts 0 = (q, s) ∧ ∀ n, step? c (texts n) = some (texts (n + 1))

def Stuck (c : Course) (p : Pointer) (s : Scan) : Prop := ¬AtFinal c s ∧ c.roomOf p ≤ 0

/-! ### One step -/

theorem step?_of_pass (hpass : s.pass c p = .ok s') : step? c (p, s) = s'.next? c := by
  rw [step?, hpass]

theorem exists_pass_of_step? (h : step? c x = some y) :
    ∃ s, x.2.pass c x.1 = .ok s ∧ s.next? c = some y := by
  unfold step? at h
  split at h
  · rename_i s hpass
    exact ⟨s, hpass, h⟩
  · cases h

theorem of_next? (h : s.next? c = some (q, t)) :
    t.pos = s.pos ∧ t.textAt? t.pos = some q ∧
      ∀ place target, (.slot place, target) ∈ t.places → (.slot place, target) ∈ s.places := by
  unfold next? at h
  split at h
  · rename_i q' hq
    cases h
    exact ⟨rfl, hq, fun _ _ hmem => hmem⟩
  · rename_i hnone
    split at h
    · cases h
    · cases h
      refine ⟨rfl, ?_, fun place target hmem => ?_⟩
      · rw [textAt?, Option.map_eq_none_iff] at hnone
        simp [textAt?, find?_append, hnone]
      · obtain hmem | hmem := mem_append.1 hmem
        · exact hmem
        · cases mem_singleton.1 hmem

theorem passes_of_pass (hpass : s.pass c p = .ok s') :
    passes c (fuel + 1) p s = (s'.next? c).elim (.ok s') fun y => passes c fuel y.1 y.2 := by
  rw [passes, hpass, next?]
  cases hq : s'.textAt? s'.pos with
  | some q => simp [bind, Except.bind, hq]
  | none =>
    by_cases hlast : c.last < s'.pos
    · simp [bind, Except.bind, hq, hlast, pure, Except.pure]
    · simp [bind, Except.bind, hq, hlast]

theorem passes_of_step? (h : step? c x = some y) :
    passes c (fuel + 1) x.1 x.2 = passes c fuel y.1 y.2 := by
  obtain ⟨s, hpass, hnext⟩ := exists_pass_of_step? h
  rw [passes_of_pass hpass, hnext]
  rfl

theorem passes_ne_endless (h : step? c x = none) :
    passes c (fuel + 1) x.1 x.2 ≠ .error endless := by
  intro hpasses
  cases hpass : x.2.pass c x.1 with
  | error e =>
    rw [passes, hpass] at hpasses
    cases hpasses
    cases eq_field_of_pass hpass
  | ok s =>
    have hnext : s.next? c = none := (step?_of_pass hpass).symm.trans h
    rw [passes_of_pass hpass, hnext] at hpasses
    cases hpasses

theorem pos_lt_of_step? (h : step? c x = some y) (hmoves : ¬Stuck c x.1 x.2) :
    x.2.pos < y.2.pos ∧ y.2.pos ≤ c.image.size := by
  obtain ⟨s, hpass, hnext⟩ := exists_pass_of_step? h
  obtain ⟨hpos, -, -⟩ := of_next? hnext
  have hlt : x.2.pos < s.pos := by
    rw [pos_lt_of_pass_iff hpass]
    by_contra hnone
    rw [not_or, Int.not_lt] at hnone
    exact hmoves hnone
  rw [hpos]
  exact ⟨hlt, pos_le_of_pass hpass hlt⟩

theorem step?_of_stuck (hstuck : Stuck c p s) (hp : s.textAt? s.pos = some p) :
    step? c (p, s) = some (p, { s with texts := s.texts.insert p "<NOTERM:>".toList }) := by
  have hread := reading_of_room_le (s := s) hstuck.2
  have hfinal := hstuck.1
  rw [AtFinal] at hfinal
  have hpass : s.pass c p = .ok { s with texts := s.texts.insert p "<NOTERM:>".toList } := by
    simp only [pass, readSegment, bind_ok_iff, pure_ok_iff]
    refine ⟨⟨false, "<NOTERM:>".toList, s.pos, s.names⟩, ⟨_, hread, ?_⟩, rfl⟩
    rw [if_neg hfinal]
    rfl
  rw [step?_of_pass hpass]
  rw [textAt?] at hp
  rw [next?, textAt?, hp]

/-! ### Whole scans -/

theorem stuck_of_leads (hstuck : Stuck c x.1 x.2) (hx : x.2.textAt? x.2.pos = some x.1)
    (h : Leads c x y) : Stuck c y.1 y.2 ∧ y.2.textAt? y.2.pos = some y.1 := by
  induction h with
  | refl => exact ⟨hstuck, hx⟩
  | tail _ hstep ih =>
    have hagain := step?_of_stuck ih.1 ih.2
    cases Option.some.inj (hagain.symm.trans hstep)
    exact ih

theorem textAt?_of_reached (h : Reached c s p t) : t.textAt? t.pos = some p := by
  obtain ⟨q, hq, hleads⟩ := h
  cases hleads with
  | refl => exact hq
  | tail _ hstep =>
    obtain ⟨_, -, hnext⟩ := exists_pass_of_step? hstep
    exact (of_next? hnext).2.1

theorem exists_step?_of_stuck (hstuck : Stuck c p t) (hp : t.textAt? t.pos = some p)
    (hleads : Leads c x (p, t)) (h : Leads c x y) : ∃ z, step? c y = some z := by
  -- every text is read before the stuck one or after it, for there is one next text at most
  have hunique : Relator.RightUnique fun x y => step? c x = some y :=
    fun _ _ _ h h' => Option.some.inj (h.symm.trans h')
  obtain hbefore | hafter := ReflTransGen.total_of_right_unique hunique h hleads
  · obtain rfl | ⟨z, hz, -⟩ := ReflTransGen.cases_head hbefore
    · exact ⟨_, step?_of_stuck hstuck hp⟩
    · exact ⟨z, hz⟩
  · obtain ⟨hstuck, hy⟩ := stuck_of_leads (x := (p, t)) hstuck hp hafter
    exact ⟨_, step?_of_stuck hstuck hy⟩

def follow (c : Course) (x : Pointer × Scan) : Pointer × Scan := (step? c x).getD x

theorem step?_iterate_follow (h : ∀ y, Leads c x y → ∃ z, step? c y = some z) (n : Nat) :
    step? c ((follow c)^[n] x) = some ((follow c)^[n + 1] x) := by
  have hfollow : ∀ y, Leads c x y → step? c y = some (follow c y) := by
    intro y hy
    obtain ⟨z, hz⟩ := h y hy
    rw [follow, hz, Option.getD_some]
  have hleads : Leads c x ((follow c)^[n] x) := by
    induction n with
    | zero => exact .refl
    | succ n ih =>
      rw [Function.iterate_succ_apply']
      exact ih.tail (hfollow _ ih)
  rw [Function.iterate_succ_apply', hfollow _ hleads]

theorem diverges_of_stuck (h : Reached c s p t) (hstuck : Stuck c p t) : Diverges c s := by
  have hp := textAt?_of_reached h
  obtain ⟨q, hq, hleads⟩ := h
  have hsteps := step?_iterate_follow fun y => exists_step?_of_stuck (y := y) hstuck hp hleads
  exact ⟨q, hq, fun n => (follow c)^[n] (q, s), rfl, hsteps⟩

theorem passes_of_diverges {texts : ℕ → Pointer × Scan}
    (h : ∀ n, step? c (texts n) = some (texts (n + 1))) (fuel n : Nat) :
    passes c fuel (texts n).1 (texts n).2 = .error endless := by
  induction fuel generalizing n with
  | zero => rfl
  | succ fuel ih => rw [passes_of_step? (h n), ih]

/-- **Scans that are nowhere stuck end.**  Every pass moves on inside the image. -/
theorem passes_of_moving (hmoves : ∀ y, Leads c x y → ¬Stuck c y.1 y.2)
    (hfuel : c.image.size < x.2.pos + fuel) (hpos : 0 < fuel) :
    passes c fuel x.1 x.2 ≠ .error endless := by
  induction fuel generalizing x with
  | zero => omega
  | succ fuel ih =>
    cases hstep : step? c x with
    | none => exact passes_ne_endless hstep
    | some y =>
      -- a text takes up a byte at least, so what is left of the image bounds the texts to come
      obtain ⟨hlt, hsize⟩ := pos_lt_of_step? hstep (hmoves x .refl)
      rw [passes_of_step? hstep]
      exact ih (fun z hz => hmoves z (.head hstep hz)) (by omega) (by omega)

theorem run_of_textAt? (h : s.textAt? s.pos = some p) :
    s.run c = passes c (c.image.size + 1) p s := by
  rw [run, h]

theorem endless_of_diverges (h : Diverges c s) : s.run c = .error endless := by
  obtain ⟨q, hq, texts, hfirst, hstep⟩ := h
  have hpasses := passes_of_diverges hstep (c.image.size + 1) 0
  rw [hfirst] at hpasses
  rw [run_of_textAt? hq, hpasses]

/-- **When a scan does not end**: it reaches a text that takes up no byte. -/
theorem endless_iff_stuck : s.run c = .error endless ↔ ∃ p t, Reached c s p t ∧ Stuck c p t := by
  constructor
  · intro hrun
    by_contra hnone
    cases hq : s.textAt? s.pos with
    | none =>
      rw [run, hq] at hrun
      cases hrun
    | some q =>
      rw [run_of_textAt? hq] at hrun
      refine passes_of_moving (x := (q, s)) (fun y hy hstuck => ?_) (by omega) (by omega) hrun
      exact hnone ⟨y.1, y.2, ⟨q, hq, hy⟩, hstuck⟩
  · rintro ⟨p, t, hreached, hstuck⟩
    exact endless_of_diverges (diverges_of_stuck hreached hstuck)

theorem endless_iff_diverges : s.run c = .error endless ↔ Diverges c s := by
  constructor
  · intro hrun
    obtain ⟨p, t, hreached, hstuck⟩ := endless_iff_stuck.1 hrun
    exact diverges_of_stuck hreached hstuck
  · exact endless_of_diverges

/-! ### Steady scans -/

/-- A pass that moves on by a byte at least, and by no more bytes than its text has room. -/
def Bounded (c : Course) (p : Pointer) (s s' : Scan) : Prop :=
  s.pos < s'.pos ∧ (s'.pos : Int) ≤ s.pos + c.roomOf p

instance (c : Course) (p : Pointer) (s s' : Scan) : Decidable (Bounded c p s s') :=
  inferInstanceAs (Decidable (_ ∧ _))

/-- A scan of which every pass that finishes is bounded. -/
def Steady (c : Course) (s : Scan) : Prop :=
  ∀ p t t', Reached c s p t → t.pass c p = .ok t' → Bounded c p t t'

/-- **When a pass is bounded**: its text has room, and all that it reads fits in. -/
theorem bounded_iff (h : s.pass c p = .ok s') :
    Bounded c p s s' ↔
      0 < c.roomOf p ∧ ((s.widths c p).sum + s.trailer c p : Nat) ≤ c.roomOf p := by
  have hpos := pos_of_pass h
  constructor
  · rintro ⟨hlt, hle⟩
    omega
  · rintro ⟨hroom, hle⟩
    exact ⟨(pos_lt_of_pass_iff h).2 (.inr hroom), by omega⟩

theorem Steady.run_ne_endless (h : Steady c s) : s.run c ≠ .error endless := by
  intro hrun
  obtain ⟨p, t, hreached, hstuck⟩ := endless_iff_stuck.1 hrun
  -- the pass over a stuck text finishes, so it would have to be bounded too
  obtain ⟨t', hpass, -⟩ :=
    exists_pass_of_step? (step?_of_stuck hstuck (textAt?_of_reached hreached))
  have hroom := ((bounded_iff hpass).1 (h p t t' hreached hpass)).1
  exact absurd hroom (Int.not_lt.2 hstuck.2)

def goesOn (c : Course) : Nat → Pointer × Scan → Bool
  | 0, _ => false
  | fuel + 1, x =>
    match x.2.pass c x.1 with
    | .error _ => true
    | .ok s => decide (Bounded c x.1 x.2 s) && (s.next? c).all (goesOn c fuel)

theorem goesOn_of_pass (h : x.2.pass c x.1 = .ok s) :
    goesOn c (fuel + 1) x = (decide (Bounded c x.1 x.2 s) && (s.next? c).all (goesOn c fuel)) := by
  rw [goesOn, h]

theorem bounded_of_goesOn (h : goesOn c fuel x = true) (hleads : Leads c x y)
    (hpass : y.2.pass c y.1 = .ok s') : Bounded c y.1 y.2 s' := by
  induction hleads using ReflTransGen.head_induction_on generalizing fuel with
  | refl =>
    cases fuel with
    | zero => cases h
    | succ fuel =>
      rw [goesOn_of_pass hpass, Bool.and_eq_true, decide_eq_true_eq] at h
      exact h.1
  | head hstep _ ih =>
    cases fuel with
    | zero => cases h
    | succ fuel =>
      obtain ⟨s, hfirst, hnext⟩ := exists_pass_of_step? hstep
      rw [goesOn_of_pass hfirst, hnext, Bool.and_eq_true] at h
      exact ih h.2

theorem goesOn_of_bounded
    (h : ∀ y s', Leads c x y → y.2.pass c y.1 = .ok s' → Bounded c y.1 y.2 s')
    (hfuel : c.image.size < x.2.pos + fuel) (hpos : 0 < fuel) : goesOn c fuel x = true := by
  induction fuel generalizing x with
  | zero => omega
  | succ fuel ih =>
    cases hpass : x.2.pass c x.1 with
    | error e => rw [goesOn, hpass]
    | ok s =>
      have hbounded := h x s .refl hpass
      have hsize := pos_le_of_pass hpass hbounded.1
      rw [goesOn_of_pass hpass, Bool.and_eq_true, decide_eq_true_eq]
      refine ⟨hbounded, ?_⟩
      cases hnext : s.next? c with
      | none => rfl
      | some y =>
        obtain ⟨hy, -, -⟩ := of_next? hnext
        have hlt := hbounded.1
        have hstep : step? c x = some y := (step?_of_pass hpass).trans hnext
        exact ih (fun z s' hz => h z s' (.head hstep hz)) (by omega) (by omega)

theorem steady_iff_goesOn :
    Steady c s ↔ (s.textAt? s.pos).all fun q => goesOn c (c.image.size + 1) (q, s) := by
  cases hq : s.textAt? s.pos with
  | none =>
    refine iff_of_true ?_ rfl
    rintro p t t' ⟨q, hq', -⟩
    cases hq.symm.trans hq'
  | some q =>
    constructor
    · intro h
      refine goesOn_of_bounded (fun y s' hleads hpass => ?_) (by omega) (by omega)
      exact h y.1 y.2 s' ⟨q, hq, hleads⟩ hpass
    · rintro h p t t' ⟨q', hq', hleads⟩ hpass
      cases hq.symm.trans hq'
      exact bounded_of_goesOn (y := (p, t)) h hleads hpass

instance (c : Course) (s : Scan) : Decidable (Steady c s) :=
  decidable_of_iff _ steady_iff_goesOn.symm

theorem mem_places_of_leads (h : Leads c x y) (hmem : (.slot place, target) ∈ y.2.places) :
    (.slot place, target) ∈ x.2.places := by
  induction h with
  | refl => exact hmem
  | tail _ hstep ih =>
    obtain ⟨s, hpass, hnext⟩ := exists_pass_of_step? hstep
    obtain ⟨seg, text, -, rfl, -⟩ := of_pass hpass
    exact ih ((of_next? hnext).2.2 place target hmem)

end Scan

/-! ### Sections -/

namespace Slots

variable {f : Font} {image : ByteArray} {finals ts : List Int} {names : Names} {a : Address}
  {start i place' : Nat} {stop target' : Int} {slots : Slots}

theorem sublist_places_add (s : Slots) (place : Nat) (target : Int) :
    ((s.add place target).targets.map Prod.fst).Sublist (s.targets.map Prod.fst ++ [place]) := by
  unfold add
  split
  · exact sublist_append_left _ _
  · rw [map_append]
    exact .refl _

theorem sublist_places_foldl {α : Type} (place : α → Nat) (target : α → Int) (es : List α)
    (s : Slots) :
    ((es.foldl (fun s e => s.add (place e) (target e)) s).targets.map Prod.fst).Sublist
      (s.targets.map Prod.fst ++ es.map place) := by
  induction es generalizing s with
  | nil =>
    rw [map_nil, append_nil]
    exact .refl _
  | cons e es ih =>
    have hadd := (sublist_places_add s (place e) (target e)).append_right (es.map place)
    rw [append_assoc] at hadd
    exact (ih _).trans hadd

theorem nodup_places (h : Slots.read image a start stop = .ok slots) :
    (slots.targets.map Prod.fst).Nodup := by
  simp only [Slots.read, bind_ok_iff] at h
  obtain ⟨words, -, h⟩ := h
  split at h
  · cases h
    exact nodup_nil
  · cases h
    refine List.Nodup.sublist
      (sublist_places_foldl (fun e : Nat × Nat => start + 2 + 2 * e.2) _ _ _) ?_
    have hplaces : words.zipIdx.map (fun e => start + 2 + 2 * e.2) =
        (List.range' 0 words.length).map fun i => start + 2 + 2 * i := by
      rw [← zipIdx_map_snd, map_map]
      rfl
    rw [hplaces, map_singleton, singleton_append, nodup_cons]
    -- the first pointer stands before all others, and those stand two bytes apart
    constructor
    · intro hmem
      obtain ⟨i, -, hi⟩ := mem_map.1 hmem
      omega
    · exact List.Nodup.map (fun i j hij => by omega) nodup_range'

theorem length_roomsOf (ts : List Int) : (roomsOf ts).length = ts.length := by
  fun_induction roomsOf ts with
  | case1 | case2 => rfl
  | case3 t u rest ih => rw [length_cons, length_cons, ih]

theorem getElem?_roomsOf {t u : Int} (ht : ts[i]? = some t) (hu : ts[i + 1]? = some u) :
    (roomsOf ts)[i]? = some (min (u - t) maxRoom) := by
  fun_induction roomsOf ts generalizing i with
  | case1 => cases ht
  | case2 => cases hu
  | case3 t' u' rest ih =>
    cases i with
    | zero =>
      cases ht
      cases hu
      rfl
    | succ i => exact ih ht hu

theorem roomOf_course (hslots : Slots.read image a start stop = .ok slots)
    (hplace : slots.targets[i]? = some (place, target))
    (hnext : slots.targets[i + 1]? = some (place', target')) :
    (slots.course f image finals).roomOf (.slot place) = min (target' - target) maxRoom := by
  have hpair : (place, min (target' - target) maxRoom) ∈
      (slots.targets.map Prod.fst).zip (roomsOf (slots.targets.map Prod.snd)) := by
    refine mem_of_getElem? (i := i) (getElem?_zip_eq_some.2 ⟨?_, ?_⟩)
    · rw [getElem?_map, hplace]
      rfl
    · refine getElem?_roomsOf ?_ ?_
      · rw [getElem?_map, hplace]
        rfl
      · rw [getElem?_map, hnext]
        rfl
  have hkeys : (((slots.targets.map Prod.fst).zip
      (roomsOf (slots.targets.map Prod.snd))).map Prod.fst).Nodup := by
    rw [map_fst_zip (by rw [length_roomsOf, length_map, length_map])]
    exact nodup_places hslots
  -- a room is found under the place, and there is no other one
  obtain ⟨room, hroom, hmem⟩ := Table.exists_find?_ofList hpair
  have hsame := inj_on_of_nodup_map hkeys hmem hpair rfl
  rw [Course.roomOf, course, hroom]
  exact (Prod.mk.inj hsame).2

theorem mem_targets_of_reached {c : Course} {t : Scan}
    (h : Scan.Reached c (slots.scan names) (.slot place) t) :
    (place, (t.pos : Int)) ∈ slots.targets := by
  have hat := Scan.textAt?_of_reached h
  obtain ⟨q, -, hleads⟩ := h
  rw [Scan.textAt?, Option.map_eq_some_iff] at hat
  obtain ⟨⟨p, target⟩, hfind, rfl⟩ := hat
  have htarget : target = t.pos := by simpa using find?_some hfind
  subst htarget
  have hmem := Scan.mem_places_of_leads hleads (mem_of_find?_eq_some hfind)
  obtain ⟨e, he, heq⟩ := mem_map.1 hmem
  rw [Prod.mk.injEq, Pointer.slot.injEq] at heq
  rw [← heq.1, ← heq.2]
  exact he

theorem pos_le_of_bounded (hslots : Slots.read image a start stop = .ok slots)
    (hplace : slots.targets[i]? = some (place, target))
    (hnext : slots.targets[i + 1]? = some (place', target')) {t t' : Scan}
    (hreached : Scan.Reached (slots.course f image finals) (slots.scan names) (.slot place) t)
    (hbounded : Scan.Bounded (slots.course f image finals) (.slot place) t t') :
    (t'.pos : Int) ≤ target' := by
  have hmem := mem_targets_of_reached hreached
  have hmem' := mem_of_getElem? hplace
  have hstart := inj_on_of_nodup_map (nodup_places hslots) hmem hmem' rfl
  have hle := hbounded.2
  rw [roomOf_course hslots hplace hnext] at hle
  have htarget : (t.pos : Int) = target := (Prod.mk.inj hstart).2
  omega

/-- **Progress of a scan.**  A pass takes up the bytes of its codes, one to four for each and no
more codes than its text has room, and the trailer of a last text.

* All passes that finish move on by a byte at least and by no more than the room exactly if all
  texts that are read have room, for more than their codes alone.
* The scan ends unless it reaches a text that has no room and is not a last one.
* If all passes are bounded, the scan ends, and no text goes beyond the next pointer's. -/
theorem steady_iff (hslots : Slots.read image a start stop = .ok slots) (f : Font)
    (finals : List Int) (names : Names) :
    let c := slots.course f image finals
    let s := slots.scan names
    (∀ p t t', Scan.Reached c s p t → t.pass c p = .ok t' →
      t'.pos = t.pos + (t.widths c p).sum + t.trailer c p ∧
      (t.widths c p).length ≤ (c.roomOf p).toNat ∧ ∀ n ∈ t.widths c p, 1 ≤ n ∧ n ≤ 4) ∧
    (Scan.Steady c s ↔ ∀ p t t', Scan.Reached c s p t → t.pass c p = .ok t' →
      0 < c.roomOf p ∧ ((t.widths c p).sum + t.trailer c p : Nat) ≤ c.roomOf p) ∧
    (s.run c = .error endless ↔ Scan.Diverges c s) ∧
    (s.run c = .error endless ↔ ∃ p t, Scan.Reached c s p t ∧ Scan.Stuck c p t) ∧
    (Scan.Steady c s → s.run c ≠ .error endless ∧
      ∀ i place place' target target' t t', slots.targets[i]? = some (place, target) →
        slots.targets[i + 1]? = some (place', target') →
        Scan.Reached c s (.slot place) t → t.pass c (.slot place) = .ok t' →
        (t'.pos : Int) ≤ target') := by
  refine ⟨?_, ?_, Scan.endless_iff_diverges, Scan.endless_iff_stuck, ?_⟩
  · intro p t t' _ hpass
    exact ⟨Scan.pos_of_pass hpass, length_widths_le .., forall_mem_widths _ _ _ _ _ _ _⟩
  · constructor
    · intro h p t t' hreached hpass
      exact (Scan.bounded_iff hpass).1 (h p t t' hreached hpass)
    · intro h p t t' hreached hpass
      exact (Scan.bounded_iff hpass).2 (h p t t' hreached hpass)
  · intro h
    refine ⟨h.run_ne_endless, ?_⟩
    intro i place place' target target' t t' hplace hnext hreached hpass
    exact pos_le_of_bounded hslots hplace hnext hreached (h _ t t' hreached hpass)

def twoLetters : Font where
  letters := ⟨[(1, "A"), (2, "B")]⟩
  kanji := ∅
  portraits := ∅

/-- A section of two texts, of which each fills its room. -/
theorem steady_iff_two_texts :
    let image : ByteArray := ⟨#[6, 0, 9, 0, 12, 0, 1, 0xCC, 0, 2, 0xCC, 0, 0xFF, 0, 0]⟩
    let slots : Slots := ⟨[(0, 6), (2, 9), (4, 12)], [], 6⟩
    let c := slots.course twoLetters image [12]
    let s := slots.scan { known := ∅ }
    Slots.read image ⟨1, 0⟩ 0 6 = .ok slots ∧ Scan.Steady c s ∧ s.run c ≠ .error endless ∧
      ∃ t', s.pass c (.slot 0) = .ok t' ∧ (t'.pos : Int) ≤ 9 := by
  intro image slots c s
  have hslots : Slots.read image ⟨1, 0⟩ 0 6 = .ok slots := by decide +kernel
  have hsteady : Scan.Steady c s := by decide +kernel
  obtain ⟨-, -, -, -, hbounds⟩ := steady_iff hslots twoLetters [12] { known := ∅ }
  obtain ⟨hends, hapart⟩ := hbounds hsteady
  have hreached : Scan.Reached c s (.slot 0) s := ⟨.slot 0, by decide +kernel, .refl⟩
  have hpos : Scan.pos <$> s.pass c (.slot 0) = .ok 9 := by decide +kernel
  obtain ⟨t', hpass, -⟩ := map_ok_iff.1 hpos
  exact ⟨hslots, hsteady, hends, t', hpass, hapart 0 0 2 6 9 s t' rfl rfl hreached hpass⟩

/-- Two sections that are not steady.  The end code of the first text is not counted, and it is the
byte where the text of the next pointer begins; and two pointers lead to the text behind the
table. -/
theorem not_steady_sections :
    (let image : ByteArray := ⟨#[6, 0, 8, 0, 12, 0, 1, 0xCC, 1, 2, 0xCC, 0, 0xFF, 0, 0]⟩
     let slots : Slots := ⟨[(0, 6), (2, 8), (4, 12)], [], 6⟩
     let c := slots.course twoLetters image [12]
     let s := slots.scan { known := ∅ }
     Slots.read image ⟨1, 0⟩ 0 6 = .ok slots ∧ ¬Scan.Steady c s ∧
       Scan.Reached c s (.slot 0) s ∧ c.roomOf (.slot 0) = 2 ∧
       ∃ t', s.pass c (.slot 0) = .ok t' ∧ s.pos = 6 ∧ t'.pos = 9) ∧
    (let image : ByteArray := ⟨#[6, 0, 6, 0, 9, 0, 1, 0xCC, 0, 0xFF, 0, 0]⟩
     let slots : Slots := ⟨[(0, 6), (2, 6), (4, 9)], [], 6⟩
     let c := slots.course twoLetters image [9]
     let s := slots.scan { known := ∅ }
     Slots.read image ⟨1, 0⟩ 0 6 = .ok slots ∧ ¬Scan.Steady c s ∧
       c.roomOf (.slot 0) = 0 ∧ Scan.Diverges c s ∧ s.run c = .error endless) := by
  constructor
  · intro image slots c s
    have hpos : Scan.pos <$> s.pass c (.slot 0) = .ok 9 := by decide +kernel
    obtain ⟨t', hpass, ht'⟩ := map_ok_iff.1 hpos
    refine ⟨by decide +kernel, by decide +kernel, ⟨.slot 0, by decide +kernel, .refl⟩, ?_, ?_⟩
    · decide +kernel
    · exact ⟨t', hpass, rfl, ht'⟩
  · intro image slots c s
    have hdiverges : Scan.Diverges c s := by
      refine Scan.diverges_of_stuck (p := .slot 0) ⟨.slot 0, by decide +kernel, .refl⟩ ?_
      exact ⟨by decide +kernel, by decide +kernel⟩
    exact ⟨by decide +kernel, by decide +kernel, by decide +kernel, hdiverges,
      Scan.endless_of_diverges hdiverges⟩

end Slots

end Cartridge.Dialog
