import Mathlib.Logic.Function.Basic
import Mathlib.Tactic.Common

namespace Clocked

variable {X A E : Type*}

theorem update_none_eq_some [DecidableEq X] {w : X → Option E} {x y : X} {e : E} :
    Function.update w y none x = some e ↔ x ≠ y ∧ w x = some e := by
  by_cases hxy : x = y
  · rw [hxy, Function.update_self]
    simp
  · rw [Function.update_of_ne hxy]
    exact (and_iff_right hxy).symm

theorem update_some_eq_some [DecidableEq X] {w : X → Option E} {x y : X} {e f : E} :
    Function.update w y (some e) x = some f ↔ x = y ∧ e = f ∨ x ≠ y ∧ w x = some f := by
  by_cases hxy : x = y
  · rw [hxy, Function.update_self]
    simp
  · rw [Function.update_of_ne hxy]
    simp [hxy]

/-- `m` finds every record that is stored in `w` under its key, together with its place. -/
structure Indexes (key : E → A) (w : X → Option E) (m : A → Option (X × E)) : Prop where
  held : ∀ x e, w x = some e ↔ m (key e) = some (x, e)
  keyed : ∀ a x e, m a = some (x, e) → key e = a

namespace Indexes

variable {key : E → A} {w : X → Option E} {m : A → Option (X × E)}

theorem nothing : Indexes key (fun _ : X ↦ none) (fun _ ↦ none) := ⟨by simp, by simp⟩

theorem held_of_some (h : Indexes key w m) {a : A} {x : X} {e : E} (hm : m a = some (x, e)) :
    w x = some e := by
  have hk := h.keyed a x e hm
  subst hk
  exact (h.held x e).mpr hm

variable [DecidableEq X]

theorem clear (h : Indexes key w m) (x : X) :
    Indexes key (Function.update w x none) (fun a ↦ (m a).filter (·.1 ≠ x)) := by
  refine ⟨fun y e ↦ ?_, fun a y e ha ↦ h.keyed a y e (Option.filter_eq_some_iff.mp ha).1⟩
  rw [Option.filter_eq_some_iff, ← h.held]
  by_cases hy : y = x
  · subst hy
    simp
  · rw [Function.update_of_ne hy]
    simp [hy]

variable [DecidableEq A]

/-- Storing a record keeps the index exactly when no other record is overwritten and no other one
with its key is left behind. -/
theorem insert_iff (h : Indexes key w m) (x : X) (e : E) :
    Indexes key (Function.update w x (some e)) (Function.update m (key e) (some (x, e))) ↔
      (∀ f, w x = some f → key f = key e) ∧ ∀ y f, w y = some f → key f = key e → y = x := by
  constructor
  · intro h'
    refine ⟨fun f hf ↦ ?_, fun y f hf hk ↦ ?_⟩
    · by_contra hk
      have hm : Function.update m (key e) (some (x, e)) (key f) = some (x, f) := by
        rw [Function.update_of_ne hk]
        exact (h.held x f).mp hf
      have hw := h'.held_of_some hm
      rw [Function.update_self] at hw
      exact hk (by rw [Option.some.inj hw])
    · by_contra hy
      have hw : Function.update w x (some e) y = some f := by rw [Function.update_of_ne hy, hf]
      have hm := (h'.held y f).mp hw
      rw [hk, Function.update_self] at hm
      exact hy (Prod.mk.inj (Option.some.inj hm)).1.symm
  · rintro ⟨hx, hy⟩
    refine ⟨fun y f ↦ ?_, fun a y f ha ↦ ?_⟩
    · simp only [update_some_eq_some, Prod.mk.injEq, ← h.held]
      constructor
      · rintro (⟨rfl, rfl⟩ | ⟨hyx, hf⟩)
        · exact .inl ⟨rfl, rfl, rfl⟩
        · exact .inr ⟨fun hk ↦ hyx (hy y f hf hk), hf⟩
      · rintro (⟨-, rfl, rfl⟩ | ⟨hk, hf⟩)
        · exact .inl ⟨rfl, rfl⟩
        · refine .inr ⟨?_, hf⟩
          rintro rfl
          exact hk (hx f hf)
    · rw [update_some_eq_some, Prod.mk.injEq] at ha
      obtain ⟨rfl, -, rfl⟩ | ⟨-, ha⟩ := ha
      · rfl
      · exact h.keyed a y f ha

theorem erase_iff (h : Indexes key w m) (a : A) (x : X) (hx : ∀ y e, m a = some (y, e) → y = x) :
    Indexes key (Function.update w x none) (Function.update m a none) ↔
      ∀ e, w x = some e → key e = a := by
  constructor
  · intro h' e he
    by_contra hk
    have hw := (h'.held x e).mpr (update_none_eq_some.mpr ⟨hk, (h.held x e).mp he⟩)
    exact (update_none_eq_some.mp hw).1 rfl
  · intro hother
    refine ⟨fun y e ↦ ?_, fun b y e hb ↦ h.keyed b y e (update_none_eq_some.mp hb).2⟩
    simp only [update_none_eq_some, ← h.held]
    constructor
    · rintro ⟨hyx, hw⟩
      refine ⟨?_, hw⟩
      rintro rfl
      exact hyx (hx y e ((h.held y e).mp hw))
    · rintro ⟨hk, hw⟩
      refine ⟨?_, hw⟩
      rintro rfl
      exact hk (hother e hw)

end Indexes

end Clocked
