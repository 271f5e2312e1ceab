import Mathlib.Data.List.Induction
import Mathlib.Tactic.Common

namespace Clocked

variable {α β : Type*}

/-- A loop that runs through `l` and overwrites its result, at first `d`, with every element
that satisfies `p`. -/
def lastWhere (l : List α) (p : α → Bool) (d : α) : α :=
  l.foldl (fun r a ↦ if p a then a else r) d

theorem lastWhere_append (l : List α) (a : α) (p : α → Bool) (d : α) :
    lastWhere (l ++ [a]) p d = if p a then a else lastWhere l p d := by
  rw [lastWhere, List.foldl_append]
  rfl

theorem lastWhere_spec {l : List α} {p : α → Bool} {d : α} (h : ∃ a ∈ l, p a = true) :
    p (lastWhere l p d) = true := by
  induction l using List.reverseRecOn with
  | nil => simp at h
  | append_singleton l b ih =>
    rw [lastWhere_append]
    by_cases hb : p b = true
    · rw [if_pos hb, hb]
    · rw [if_neg hb]
      obtain ⟨a, ha, hpa⟩ := h
      rcases List.mem_append.mp ha with ha | ha
      · exact ih ⟨a, ha, hpa⟩
      · rw [List.mem_singleton.mp ha] at hpa
        exact absurd hpa hb

theorem foldl_ite_of_unique {l : List α} {p : α → Bool} {a : α} (ha : a ∈ l)
    (hp : ∀ b, p b = true ↔ b = a) (f : α → β) (d : β) :
    l.foldl (fun r b ↦ if p b then f b else r) d = f a := by
  induction l using List.reverseRecOn with
  | nil => simp at ha
  | append_singleton l b ih =>
    rw [List.foldl_append, List.foldl_cons, List.foldl_nil]
    split
    case isTrue hb => rw [(hp b).mp hb]
    case isFalse hb =>
      rcases List.mem_append.mp ha with ha | ha
      · exact ih ha
      · exact absurd ((hp b).mpr (List.mem_singleton.mp ha).symm) hb

end Clocked
