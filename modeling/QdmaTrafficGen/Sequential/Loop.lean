import Mathlib.Data.List.Basic
import Mathlib.Logic.Relation
import Mathlib.Tactic.Common

open Relation

namespace Sequential

variable {σ ρ : Type*}

namespace Loop

/-- The result of a loop whose body either leaves the loop with a result or goes on with a new
state, if it leaves it within `k` iterations. -/
def run (body : σ → ρ ⊕ σ) : ℕ → σ → Option ρ
  | 0, _ => none
  | k + 1, s =>
    match body s with
    | .inl r => some r
    | .inr t => run body k t

variable (body : σ → ρ ⊕ σ)

/-- The loop that starts with `s` ends, with the result `r`. -/
def Ends (s : σ) (r : ρ) : Prop := ∃ k, run body k s = some r

def Goes (s t : σ) : Prop := body s = .inr t

variable {body} {s t : σ} {r r' : ρ} {k : ℕ}

theorem run_succ_of_leaves (h : body s = .inl r) : run body (k + 1) s = some r := by
  rw [run, h]

theorem run_succ_of_goes (h : Goes body s t) : run body (k + 1) s = run body k t := by
  rw [run, h]

theorem ends_of_leaves (h : body s = .inl r) : Ends body s r := ⟨1, run_succ_of_leaves h⟩

theorem run_of_goes (h : Goes body s t) (hk : run body k s = some r) :
    ∃ j < k, run body j t = some r := by
  cases k with
  | zero => nomatch hk
  | succ k => exact ⟨k, by omega, by rwa [run_succ_of_goes h] at hk⟩

theorem run_of_path (h : TransGen (Goes body) s t) (hk : run body k s = some r) :
    ∃ j < k, run body j t = some r := by
  induction h with
  | single h => exact run_of_goes h hk
  | tail _ h ih =>
    obtain ⟨i, hi, hr⟩ := ih
    obtain ⟨j, hj, hr⟩ := run_of_goes h hr
    exact ⟨j, by omega, hr⟩

theorem ends_iff_of_goes (h : Goes body s t) : Ends body s r ↔ Ends body t r := by
  constructor
  · rintro ⟨k, hk⟩
    obtain ⟨j, -, hj⟩ := run_of_goes h hk
    exact ⟨j, hj⟩
  · rintro ⟨k, hk⟩
    exact ⟨k + 1, by rwa [run_succ_of_goes h]⟩

theorem ends_iff_of_path (h : TransGen (Goes body) s t) : Ends body s r ↔ Ends body t r := by
  induction h with
  | single h => exact ends_iff_of_goes h
  | tail _ h ih => exact ih.trans (ends_iff_of_goes h)

theorem Ends.unique (h : Ends body s r) (h' : Ends body s r') : r = r' := by
  obtain ⟨k, hk⟩ := h
  induction k generalizing s with
  | zero => nomatch hk
  | succ k ih =>
    obtain ⟨j, hj⟩ := h'
    cases hs : body s with
    | inl a =>
      cases j with
      | zero => nomatch hj
      | succ j =>
        rw [run_succ_of_leaves hs] at hk hj
        exact Option.some.inj (hk.symm.trans hj)
    | inr t =>
      rw [run_succ_of_goes hs] at hk
      exact ih ((ends_iff_of_goes hs).mp ⟨j, hj⟩) hk

theorem Ends.of_invariant {I : σ → Prop} {P : ρ → Prop} (hgo : ∀ s t, I s → Goes body s t → I t)
    (hleave : ∀ s r, I s → body s = .inl r → P r) (hs : I s) (h : Ends body s r) : P r := by
  obtain ⟨k, hk⟩ := h
  induction k generalizing s with
  | zero => cases hk
  | succ k ih =>
    cases hb : body s with
    | inl a =>
      rw [run_succ_of_leaves hb] at hk
      exact Option.some.inj hk ▸ hleave s a hs hb
    | inr t =>
      rw [run_succ_of_goes hb] at hk
      exact ih (hgo s t hs hb) hk

/-- A loop whose body keeps `I` and lowers a measure whenever it goes on ends. -/
theorem exists_ends {I : σ → Prop} (μ : σ → ℕ)
    (h : ∀ s t, I s → Goes body s t → I t ∧ μ t < μ s) (hs : I s) : ∃ r, Ends body s r := by
  induction hn : μ s using Nat.strongRecOn generalizing s with
  | ind n ih =>
    cases hb : body s with
    | inl r => exact ⟨r, ends_of_leaves hb⟩
    | inr t =>
      obtain ⟨hi, hlt⟩ := h s t hs hb
      obtain ⟨r, hr⟩ := ih (μ t) (hn ▸ hlt) hi rfl
      exact ⟨r, (ends_iff_of_goes hb).mpr hr⟩

theorem not_ends_of_cycle (h : TransGen (Goes body) s s) : ¬Ends body s r := by
  rintro ⟨k, hk⟩
  induction k using Nat.strongRecOn with
  | ind k ih =>
    obtain ⟨j, hj, hr⟩ := run_of_path h hk
    exact ih j hj hr

/-- A loop whose body keeps `I` and lowers a measure until it leaves the loop with a result that
satisfies `P`, or goes on with a state that satisfies `E`, does one of the two. -/
theorem ends_or_exits (body : σ → ρ ⊕ σ) {I E : σ → Prop} {P : ρ → Prop} (μ : σ → ℕ)
    (h : ∀ s, I s → (∃ r, body s = .inl r ∧ P r) ∨
      ∃ t, body s = .inr t ∧ (E t ∨ I t ∧ μ t < μ s)) (hs : I s) :
    (∃ r, Ends body s r ∧ P r) ∨ ∃ t, TransGen (Goes body) s t ∧ E t := by
  induction hn : μ s using Nat.strongRecOn generalizing s with
  | ind n ih =>
    obtain ⟨r, hr, hp⟩ | ⟨t, ht, he | ⟨hi, hlt⟩⟩ := h s hs
    · exact .inl ⟨r, ends_of_leaves hr, hp⟩
    · exact .inr ⟨t, .single ht, he⟩
    · obtain ⟨r, hr, hp⟩ | ⟨u, hu, he⟩ := ih (μ t) (hn ▸ hlt) hi rfl
      · exact .inl ⟨r, (ends_iff_of_goes ht).mpr hr, hp⟩
      · exact .inr ⟨u, .head ht hu, he⟩

theorem ends_of_measure (body : σ → ρ ⊕ σ) {I : σ → Prop} {P : ρ → Prop} (μ : σ → ℕ)
    (h : ∀ s, I s → (∃ r, body s = .inl r ∧ P r) ∨ ∃ t, body s = .inr t ∧ I t ∧ μ t < μ s)
    (hs : I s) : ∃ r, Ends body s r ∧ P r := by
  rcases ends_or_exits body (E := fun _ ↦ False) μ
    (fun s hs ↦ (h s hs).imp_right fun ⟨t, ht, hi⟩ ↦ ⟨t, ht, .inr hi⟩) hs with hr | ⟨-, -, hf⟩
  · exact hr
  · exact hf.elim

end Loop

/-- Two nested counting loops are one, which counts through the positions of the inner loop. -/
theorem foldl_nested (f : σ → ℕ → ℕ → σ) (a b : ℕ) (s : σ) :
    (List.range a).foldl (fun s x ↦ (List.range b).foldl (fun s c ↦ f s x c) s) s =
      (List.range (a * b)).foldl (fun s k ↦ f s (k / b) (k % b)) s := by
  induction a with
  | zero => rw [Nat.zero_mul, List.range_zero, List.foldl_nil, List.foldl_nil]
  | succ a ih =>
    rw [List.range_succ, List.foldl_concat, ih, Nat.succ_mul, List.range_add, List.foldl_append,
      List.foldl_map]
    refine List.foldl_ext _ _ _ fun s c hc ↦ ?_
    have hb : c < b := List.mem_range.mp hc
    rw [Nat.mul_comm a b, Nat.mul_add_div (by omega), Nat.mul_add_mod, Nat.div_eq_of_lt hb,
      Nat.mod_eq_of_lt hb, Nat.add_zero]

theorem takeWhile_range {p : ℕ → Bool} {k n : ℕ} (hk : k < n) (h : ∀ x < k, p x = true)
    (hn : p k = false) : (List.range n).takeWhile p = List.range k := by
  obtain ⟨m, rfl⟩ : ∃ m, n = k + (m + 1) := ⟨n - k - 1, by omega⟩
  rw [List.range_add, List.takeWhile_append_of_pos fun x hx ↦ h x (List.mem_range.mp hx),
    List.range_succ_eq_map, List.map_cons, List.takeWhile_cons_of_neg, List.append_nil]
  rw [Nat.add_zero, hn]
  exact Bool.false_ne_true

end Sequential
