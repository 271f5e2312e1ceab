import Mathlib.Logic.Function.Basic
import Mathlib.Tactic.Common

namespace Clocked

variable {A V : Type*} [DecidableEq A]

/-- The memory once the pending writes, oldest first, have all been carried out. -/
def overlay (mem : A → V) (pending : List (A × V)) : A → V :=
  pending.foldl (fun m w ↦ Function.update m w.1 w.2) mem

@[simp] theorem overlay_nil (mem : A → V) : overlay mem [] = mem := rfl

theorem overlay_retire (mem : A → V) (a : A) (v : V) (p : List (A × V)) :
    overlay (Function.update mem a v) p = overlay mem ((a, v) :: p) := rfl

theorem overlay_append (mem : A → V) (p q : List (A × V)) :
    overlay mem (p ++ q) = overlay (overlay mem p) q := List.foldl_append

theorem overlay_of_notMem {mem : A → V} {p : List (A × V)} {a : A} (h : a ∉ p.map Prod.fst) :
    overlay mem p a = mem a := by
  induction p generalizing mem with
  | nil => rfl
  | cons w p ih =>
    simp only [List.map_cons, List.mem_cons, not_or] at h
    rw [overlay, List.foldl_cons]
    exact (ih h.2).trans (Function.update_of_ne h.1 _ _)

end Clocked
