import Mathlib.Data.List.Infix
import Mathlib.Data.List.Induction
import Mathlib.Tactic.Common

namespace Sequential

variable {σ ε α β : Type*}

def after (step : σ → ε → σ) (s : σ) (es : List ε) : σ := es.foldl step s

/-- Every event of a run satisfies `P` in the state in which it comes. -/
def Every (step : σ → ε → σ) (s : σ) (P : σ → ε → Prop) (es : List ε) : Prop :=
  ∀ es' e, es' ++ [e] <+: es → P (after step s es') e

variable {step : σ → ε → σ} {s : σ} {P Q R : σ → ε → Prop} {I : σ → Prop} {es : List ε} {e : ε}

theorem after_concat : after step s (es ++ [e]) = step (after step s es) e := List.foldl_concat ..

theorem every_nil : Every step s P [] := by
  intro es' e h
  simp at h

theorem every_concat :
    Every step s P (es ++ [e]) ↔ Every step s P es ∧ P (after step s es) e := by
  constructor
  · intro h
    exact ⟨fun es' e' hp ↦ h es' e' (hp.trans (List.prefix_append es [e])), h es e List.prefix_rfl⟩
  · rintro ⟨hes, he⟩ es' e' hp
    rcases List.prefix_concat_iff.mp hp with hp | hp
    · obtain ⟨rfl, heq⟩ := List.append_inj' hp rfl
      rwa [List.singleton_inj.mp heq]
    · exact hes es' e' hp

theorem every_singleton : Every step s P [e] ↔ P s e := by
  rw [← List.nil_append [e], every_concat]
  exact ⟨fun h ↦ h.2, fun h ↦ ⟨every_nil, h⟩⟩

/-- If in the states that satisfy `I` an event that may come satisfies `P` exactly when it
satisfies `R`, and then keeps `I`, the events of a run satisfy the one when they satisfy the other. -/
theorem every_iff (h₀ : I s) (hs : ∀ s e, I s → Q s e → (P s e ↔ R s e))
    (hi : ∀ s e, I s → Q s e → R s e → I (step s e)) (hq : Every step s Q es) :
    Every step s P es ↔ Every step s R es := by
  suffices (Every step s P es ↔ Every step s R es) ∧ (Every step s R es → I (after step s es)) from
    this.1
  induction es using List.reverseRecOn with
  | nil => exact ⟨⟨fun _ ↦ every_nil, fun _ ↦ every_nil⟩, fun _ ↦ h₀⟩
  | append_singleton es e ih =>
    obtain ⟨hq, he⟩ := every_concat.mp hq
    obtain ⟨hiff, hinv⟩ := ih hq
    rw [every_concat, every_concat, after_concat]
    refine ⟨?_, fun ⟨hr, hre⟩ ↦ hi _ e (hinv hr) he hre⟩
    constructor
    · rintro ⟨hp, hpe⟩
      have hr := hiff.mp hp
      exact ⟨hr, (hs _ e (hinv hr) he).mp hpe⟩
    · rintro ⟨hr, hre⟩
      exact ⟨hiff.mpr hr, (hs _ e (hinv hr) he).mpr hre⟩

/-- The state in which a monitor, at first in `b`, is after the actions of a log, if it has not
given up at one that must not come. -/
def observe (m : β → α → Option β) (b : β) (l : List α) : Option β := l.foldlM m b

/-- No action of the log must not come. -/
def Accepts (m : β → α → Option β) (b : β) (l : List α) : Prop := (observe m b l).isSome

variable {m : β → α → Option β} {b c : β} {l l' : List α} {a : α}

theorem observe_concat : observe m b (l ++ [a]) = (observe m b l).bind (m · a) := by
  rw [observe, List.foldlM_append]
  simp only [List.foldlM_cons, List.foldlM_nil, bind_pure]
  rfl

theorem observe_of_concat (h : observe m b l = some c) : observe m b (l ++ [a]) = m c a := by
  rw [observe_concat, h]
  rfl

theorem Accepts.initial (h : Accepts m b l') (hp : l <+: l') : Accepts m b l := by
  obtain ⟨t, rfl⟩ := hp
  unfold Accepts observe at h ⊢
  rw [List.foldlM_append] at h
  cases hl : l.foldlM m b with
  | none =>
    rw [hl] at h
    exact absurd h nofun
  | some c => rfl

end Sequential
