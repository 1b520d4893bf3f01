import Cartridge.Workspace
import Mathlib.Data.List.Forall2

/-!
# Computations that may fail

When a computation made of parts gives a result: every part gives one.  The lemmas take a `do` block
apart one part at a time, so that later proofs never look at how failure is carried along.
-/

open List

namespace Cartridge

variable {ε α β : Type} {x : Except ε α} {a : α} {b : β} {f : Fault} {as : List α} {bs : List β}

theorem map_ok_iff {f : α → β} : f <$> x = .ok b ↔ ∃ a, x = .ok a ∧ f a = b := by
  cases x with
  | error e | ok a => simp [Functor.map, Except.map]

theorem map_eq_error_iff {f : α → β} {e : ε} : f <$> x = .error e ↔ x = .error e := by
  cases x with
  | error e' | ok a => simp [Functor.map, Except.map]

theorem discard_eq (x : Except ε α) : discard x = (fun _ => PUnit.unit) <$> x := by
  cases x with
  | error e | ok a => rfl

theorem bind_ok_iff {f : α → Except ε β} : x >>= f = .ok b ↔ ∃ a, x = .ok a ∧ f a = .ok b := by
  cases x with
  | error e | ok a => simp [bind, Except.bind]

theorem bind_eq_error_iff {f : α → Except ε β} {e : ε} :
    x >>= f = .error e ↔ x = .error e ∨ ∃ a, x = .ok a ∧ f a = .error e := by
  cases x with
  | error e' | ok a => simp [bind, Except.bind]

@[simp] theorem pure_ok_iff {a' : α} : (pure a : Except ε α) = .ok a' ↔ a = a' := by
  simp [pure, Except.pure]

theorem guard_ok_iff {c : Prop} [Decidable c] {f : ε} {next : β → Except ε α} :
    (if c then throw f >>= next else x) = .ok a ↔ ¬c ∧ x = .ok a := by
  by_cases hc : c
  · simp [hc, throw, throwThe, MonadExceptOf.throw, bind, Except.bind]
  · simp [hc]

@[simp] theorem require_ok_iff {c : Bool} {u : Unit} :
    (require c f : Except Fault Unit) = .ok u ↔ c = true := by
  cases c with
  | false => simp [require, throw, throwThe, MonadExceptOf.throw]
  | true => simp [require, pure, Except.pure]

@[simp] theorem demand_ok_iff {o : Option α} :
    (demand o f : Except Fault α) = .ok a ↔ o = some a := by
  cases o with
  | none => simp [demand, throw, throwThe, MonadExceptOf.throw]
  | some a => simp [demand, pure, Except.pure]

theorem mapM_ok_iff {f : α → Except ε β} :
    as.mapM f = .ok bs ↔ List.Forall₂ (fun a b => f a = .ok b) as bs := by
  induction as generalizing bs with
  | nil =>
    rw [mapM_nil, pure_ok_iff, forall₂_nil_left_iff]
    exact eq_comm
  | cons a as ih =>
    simp only [mapM_cons, bind_ok_iff, pure_ok_iff, forall₂_cons_left_iff, ih]
    constructor
    · rintro ⟨b, hb, bs, hbs, rfl⟩
      exact ⟨b, bs, hb, hbs, rfl⟩
    · rintro ⟨b, bs, hb, hbs, rfl⟩
      exact ⟨b, hb, bs, hbs, rfl⟩

/-- Whatever stands on the right of a relation between lists is related to something on the left. -/
theorem exists_of_forall₂ {R : α → β → Prop} (h : List.Forall₂ R as bs) (hb : b ∈ bs) :
    ∃ a ∈ as, R a b := by
  induction h with
  | nil => cases hb
  | cons hfirst _ ih =>
    obtain rfl | hb := mem_cons.1 hb
    · exact ⟨_, mem_cons_self, hfirst⟩
    · obtain ⟨a, ha, hrelated⟩ := ih hb
      exact ⟨a, mem_cons_of_mem _ ha, hrelated⟩

theorem exists_of_mem_mapM {f : α → Except ε β} (h : as.mapM f = .ok bs) (hb : b ∈ bs) :
    ∃ a ∈ as, f a = .ok b :=
  exists_of_forall₂ (R := fun a b => f a = .ok b) (mapM_ok_iff.1 h) hb

theorem exists_mem_of_mapM {f : α → Except ε β} (h : as.mapM f = .ok bs) (ha : a ∈ as) :
    ∃ b ∈ bs, f a = .ok b :=
  exists_of_forall₂ (R := fun b a => f a = .ok b) (mapM_ok_iff.1 h).flip ha

theorem exists_mapM_eq_ok {f : α → Except ε β} (h : ∀ a ∈ as, ∃ b, f a = .ok b) :
    ∃ bs, as.mapM f = .ok bs := by
  induction as with
  | nil => exact ⟨[], rfl⟩
  | cons a as ih =>
    obtain ⟨b, hb⟩ := h a mem_cons_self
    obtain ⟨bs, hbs⟩ := ih fun a ha => h a (mem_cons_of_mem _ ha)
    exact ⟨b :: bs, mapM_ok_iff.2 (.cons hb (mapM_ok_iff.1 hbs))⟩

theorem foldlM_invariant {f : β → α → Except ε β} {b b' : β} (P : β → Prop)
    (hstep : ∀ a ∈ as, ∀ c c', P c → f c a = .ok c' → P c') (hb : P b)
    (h : as.foldlM f b = .ok b') : P b' := by
  induction as generalizing b with
  | nil =>
    rw [foldlM_nil, pure_ok_iff] at h
    exact h ▸ hb
  | cons a as ih =>
    rw [foldlM_cons, bind_ok_iff] at h
    obtain ⟨c, hc, hrest⟩ := h
    obtain ⟨hfirst, hothers⟩ := forall_mem_cons.1 hstep
    exact ih hothers (hfirst b c hb hc) hrest

theorem eq_ok_get (h : x.toOption.isSome) : x = .ok (x.toOption.get h) := by
  cases x with
  | error e => cases h
  | ok a => rfl

@[simp] theorem Job.on_pure (a : α) (w : Workspace) : (pure a : Job α).on w = (.ok a, w) := rfl

theorem ne_pure_of_on_eq_error {job : Job α} (h : (job.on {}).1 = .error f) (a : α) :
    job ≠ pure a := by
  rintro rfl
  simp at h

end Cartridge
