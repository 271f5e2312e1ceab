import Mathlib.Algebra.Order.Ring.Int
import Mathlib.Data.List.Basic
import Mathlib.Data.List.Nodup
import Mathlib.Data.List.Perm.Basic
import Mathlib.Tactic.Common

namespace Ranges

/-- The `len` consecutive cells from `start` on. -/
structure Extent where
  start : ℤ
  len : ℕ
  deriving DecidableEq

namespace Extent

def stop (e : Extent) : ℤ := e.start + e.len

def cells (e : Extent) : List ℤ := (List.range e.len).map fun i : ℕ ↦ e.start + i

variable {e f : Extent} {z : ℤ}

theorem mem_cells : z ∈ e.cells ↔ e.start ≤ z ∧ z < e.stop := by
  simp only [cells, stop, List.mem_map, List.mem_range]
  constructor
  · rintro ⟨i, hi, rfl⟩
    omega
  · intro h
    exact ⟨(z - e.start).toNat, by omega, by omega⟩

theorem nodup_cells (e : Extent) : e.cells.Nodup :=
  List.nodup_range.map fun i j h ↦ by simpa using h

theorem cells_of_len_eq_zero (h : e.len = 0) : e.cells = [] := by simp [cells, h]

theorem cells_append (h : e.stop = f.start) :
    e.cells ++ f.cells = (⟨e.start, e.len + f.len⟩ : Extent).cells := by
  simp only [cells, List.range_add, List.map_append, List.map_map]
  congr 1
  refine List.map_congr_left fun i _ ↦ ?_
  simp only [Function.comp_apply, ← h, stop]
  push_cast
  omega

end Extent

def cells (l : List Extent) : List ℤ := l.flatMap Extent.cells

/-- No extent reaches into a later one. -/
def Sorted (l : List Extent) : Prop := l.Pairwise fun e f ↦ e.stop ≤ f.start

/-- Between any two extents lies a cell that is in neither. -/
def Separated (l : List Extent) : Prop := l.Pairwise fun e f ↦ e.stop < f.start

def Positive (l : List Extent) : Prop := ∀ e ∈ l, 0 < e.len

def insert (e : Extent) : List Extent → List Extent
  | [] => [e]
  | x :: l => if x.start > e.start then e :: x :: l else x :: insert e l

def coalesceFrom (e : Extent) : List Extent → List Extent
  | [] => [e]
  | x :: l =>
    if e.stop = x.start then coalesceFrom ⟨e.start, e.len + x.len⟩ l else e :: coalesceFrom x l

/-- Joins every extent with the ones that follow it without a gap. -/
def coalesce : List Extent → List Extent
  | [] => []
  | e :: l => coalesceFrom e l

variable {l l' : List Extent} {e f x : Extent} {a z : ℤ} {n : ℕ}

@[simp] theorem cells_nil : cells [] = [] := rfl

@[simp] theorem cells_cons : cells (e :: l) = e.cells ++ cells l := List.flatMap_cons

@[simp] theorem cells_append : cells (l ++ l') = cells l ++ cells l' := List.flatMap_append

theorem mem_cells : z ∈ cells l ↔ ∃ e ∈ l, z ∈ e.cells := List.mem_flatMap

theorem Separated.sorted (h : Separated l) : Sorted l := h.imp fun h ↦ h.le

theorem perm_insert : (insert e l).Perm (e :: l) := by
  induction l with
  | nil => exact .refl _
  | cons x l ih =>
    rw [insert]
    split
    · exact .refl _
    · exact (ih.cons x).trans (.swap e x l)

theorem cells_insert : (cells (insert e l)).Perm (e.cells ++ cells l) :=
  perm_insert.flatMap_right _

theorem cells_coalesceFrom : cells (coalesceFrom e l) = cells (e :: l) := by
  induction l generalizing e with
  | nil => rfl
  | cons x l ih =>
    rw [coalesceFrom]
    split
    next h => rw [ih, cells_cons, cells_cons, cells_cons, ← Extent.cells_append h, List.append_assoc]
    next => rw [cells_cons, cells_cons, ih]

theorem cells_coalesce : cells (coalesce l) = cells l := by
  cases l with
  | nil => rfl
  | cons e l => exact cells_coalesceFrom

theorem Positive.insert (hl : Positive l) (he : 0 < e.len) : Positive (insert e l) := by
  intro x hx
  rcases List.mem_cons.1 (perm_insert.mem_iff.1 hx) with rfl | hx
  · exact he
  · exact hl x hx

theorem Sorted.insert (hl : Sorted l) (hpos : Positive l) (he : 0 < e.len)
    (hd : ∀ z ∈ e.cells, z ∉ cells l) : Sorted (insert e l) := by
  induction l with
  | nil => exact List.pairwise_singleton _ _
  | cons x l ih =>
    obtain ⟨hx, hl⟩ := List.pairwise_cons.1 hl
    have hxpos : 0 < x.len := hpos x List.mem_cons_self
    have hsx : x.stop = x.start + x.len := rfl
    have hse : e.stop = e.start + e.len := rfl
    rw [Ranges.insert]
    split
    next hlt =>
      -- the first cell of `x` would be shared if `e` reached it
      have hex : e.stop ≤ x.start := by
        by_contra hc
        refine hd x.start (Extent.mem_cells.2 ⟨by omega, by omega⟩) ?_
        rw [cells_cons]
        exact List.mem_append_left _ (Extent.mem_cells.2 ⟨le_rfl, by omega⟩)
      refine List.pairwise_cons.2 ⟨fun y hy ↦ ?_, List.pairwise_cons.2 ⟨hx, hl⟩⟩
      rcases List.mem_cons.1 hy with rfl | hy
      · exact hex
      · have hxy := hx y hy
        omega
    next hle =>
      have hxe : x.stop ≤ e.start := by
        by_contra hc
        refine hd e.start (Extent.mem_cells.2 ⟨le_rfl, by omega⟩) ?_
        rw [cells_cons]
        exact List.mem_append_left _ (Extent.mem_cells.2 ⟨by omega, by omega⟩)
      refine List.pairwise_cons.2 ⟨fun y hy ↦ ?_, ih hl (fun y hy ↦ hpos y (.tail _ hy)) ?_⟩
      · rcases List.mem_cons.1 (perm_insert.mem_iff.1 hy) with rfl | hy
        · exact hxe
        · exact hx y hy
      · intro z hz hzl
        exact hd z hz (by rw [cells_cons]; exact List.mem_append_right _ hzl)

theorem Positive.join (hl : Positive (e :: x :: l)) : Positive (⟨e.start, e.len + x.len⟩ :: l) := by
  intro y hy
  rcases List.mem_cons.1 hy with rfl | hy
  · exact Nat.add_pos_left (hl e List.mem_cons_self) _
  · exact hl y (.tail _ (.tail _ hy))

theorem Sorted.join (hl : Sorted (e :: x :: l)) (h : e.stop = x.start) :
    Sorted (⟨e.start, e.len + x.len⟩ :: l) := by
  obtain ⟨-, hl⟩ := List.pairwise_cons.1 hl
  obtain ⟨hx, hl⟩ := List.pairwise_cons.1 hl
  refine List.pairwise_cons.2 ⟨fun y hy ↦ ?_, hl⟩
  have hxy := hx y hy
  simp only [Extent.stop] at hxy h ⊢
  push_cast
  omega

theorem Positive.coalesceFrom (hl : Positive (e :: l)) : Positive (coalesceFrom e l) := by
  induction l generalizing e with
  | nil => exact hl
  | cons x l ih =>
    rw [Ranges.coalesceFrom]
    split
    · exact ih hl.join
    · intro y hy
      rcases List.mem_cons.1 hy with rfl | hy
      · exact hl _ List.mem_cons_self
      · exact ih (fun w hw ↦ hl w (.tail _ hw)) y hy

theorem start_le_of_mem_coalesceFrom (hl : Sorted (e :: l)) (hx : x ∈ coalesceFrom e l) :
    e.start ≤ x.start := by
  induction l generalizing e with
  | nil => rw [List.mem_singleton.1 hx]
  | cons y l ih =>
    rw [coalesceFrom] at hx
    split at hx
    next h =>
      have hjx := ih (hl.join h) hx
      exact hjx
    next =>
      rcases List.mem_cons.1 hx with rfl | hx
      · exact le_rfl
      · have hey : e.stop ≤ y.start := (List.pairwise_cons.1 hl).1 y List.mem_cons_self
        have hyx := ih (List.pairwise_cons.1 hl).2 hx
        have he : e.stop = e.start + e.len := rfl
        omega

theorem Sorted.coalesceFrom (hl : Sorted (e :: l)) : Separated (coalesceFrom e l) := by
  induction l generalizing e with
  | nil => exact List.pairwise_singleton _ _
  | cons x l ih =>
    obtain ⟨hex, hl'⟩ := List.pairwise_cons.1 hl
    rw [Ranges.coalesceFrom]
    split
    next h => exact ih (hl.join h)
    next h =>
      refine List.pairwise_cons.2 ⟨fun y hy ↦ ?_, ih hl'⟩
      have hle := hex x List.mem_cons_self
      have hxy := start_le_of_mem_coalesceFrom hl' hy
      omega

/-- What has been coalesced has no two extents that touch. -/
theorem Sorted.coalesce (hl : Sorted l) : Separated (coalesce l) := by
  cases l with
  | nil => exact .nil
  | cons e l => exact hl.coalesceFrom

theorem pairwise_replace {α : Type*} {R : α → α → Prop} {l l' ms : List α} {e : α}
    (hl : (l ++ e :: l').Pairwise R) (hms : ms.Pairwise R)
    (h : ∀ m ∈ ms, (∀ x, R x e → R x m) ∧ ∀ x, R e x → R m x) : (l ++ (ms ++ l')).Pairwise R := by
  obtain ⟨hl, he, hle⟩ := List.pairwise_append.1 hl
  obtain ⟨he, hl'⟩ := List.pairwise_cons.1 he
  refine List.pairwise_append.2 ⟨hl, List.pairwise_append.2 ⟨hms, hl', fun m hm f hf ↦ ?_⟩, ?_⟩
  · exact (h m hm).2 f (he f hf)
  · intro x hx y hy
    rcases List.mem_append.1 hy with hy | hy
    · exact (h y hy).1 x (hle x hx e List.mem_cons_self)
    · exact hle x hx y (.tail _ hy)

theorem Sorted.replace {ms : List Extent} (hl : Sorted (l ++ e :: l')) (hms : Sorted ms)
    (h : ∀ m ∈ ms, e.start ≤ m.start ∧ m.stop ≤ e.stop) : Sorted (l ++ (ms ++ l')) :=
  pairwise_replace hl hms fun m hm ↦
    ⟨fun _ hx ↦ hx.trans (h m hm).1, fun _ hx ↦ (h m hm).2.trans hx⟩

theorem Separated.replace {ms : List Extent} (hl : Separated (l ++ e :: l')) (hms : Separated ms)
    (h : ∀ m ∈ ms, e.start ≤ m.start ∧ m.stop ≤ e.stop) : Separated (l ++ (ms ++ l')) :=
  pairwise_replace hl hms fun m hm ↦
    ⟨fun _ hx ↦ hx.trans_le (h m hm).1, fun _ hx ↦ (h m hm).2.trans_lt hx⟩

theorem Separated.trichotomy (hl : Separated l) (he : e ∈ l) (hf : f ∈ l) :
    e = f ∨ e.stop < f.start ∨ f.stop < e.start := by
  induction l with
  | nil => cases he
  | cons x l ih =>
    obtain ⟨hx, hl⟩ := List.pairwise_cons.1 hl
    rcases List.mem_cons.1 he with rfl | he' <;> rcases List.mem_cons.1 hf with rfl | hf'
    · exact .inl rfl
    · exact .inr (.inl (hx f hf'))
    · exact .inr (.inr (hx e he'))
    · exact ih hl he' hf'

theorem Separated.exists_extent (hl : Separated l) (hn : 0 < n)
    (h : ∀ i < n, a + (i : ℕ) ∈ cells l) : ∃ e ∈ l, e.start ≤ a ∧ a + n ≤ e.stop := by
  obtain ⟨e, he, hae⟩ := mem_cells.1 (h 0 hn)
  rw [Extent.mem_cells] at hae
  refine ⟨e, he, by omega, ?_⟩
  by_contra hc
  -- the cell right after `e` would have to be in another extent
  obtain ⟨f, hf, hef⟩ := mem_cells.1 (h (e.stop - a).toNat (by omega))
  rw [Extent.mem_cells] at hef
  rcases hl.trichotomy he hf with rfl | h | h <;> omega

/-- Sorted extents, none of them empty, in the cells from `a` to `b`. -/
structure Layout (a b : ℤ) (l : List Extent) : Prop where
  inside : ∀ e ∈ l, a ≤ e.start ∧ e.stop ≤ b
  positive : Positive l
  sorted : Sorted l

namespace Layout

variable {b : ℤ}

theorem insert (h : Layout a b l) (he : a ≤ e.start ∧ e.stop ≤ b) (hpos : 0 < e.len)
    (hd : ∀ z ∈ e.cells, z ∉ cells l) : Layout a b (insert e l) where
  inside x hx := by
    rcases List.mem_cons.1 (perm_insert.mem_iff.1 hx) with rfl | hx
    · exact he
    · exact h.inside x hx
  positive := h.positive.insert hpos
  sorted := h.sorted.insert h.positive hpos hd

theorem join (h : Layout a b (e :: x :: l)) (hex : e.stop = x.start) :
    Layout a b (⟨e.start, e.len + x.len⟩ :: l) where
  inside y hy := by
    rcases List.mem_cons.1 hy with rfl | hy
    · have he := h.inside e List.mem_cons_self
      have hx := h.inside x (.tail _ List.mem_cons_self)
      simp only [Extent.stop] at he hx hex ⊢
      push_cast
      omega
    · exact h.inside y (.tail _ (.tail _ hy))
  positive := h.positive.join
  sorted := h.sorted.join hex

theorem tail (h : Layout a b (e :: l)) : Layout a b l where
  inside x hx := h.inside x (.tail _ hx)
  positive x hx := h.positive x (.tail _ hx)
  sorted := (List.pairwise_cons.1 h.sorted).2

theorem coalesceFrom (h : Layout a b (e :: l)) : Layout a b (coalesceFrom e l) where
  inside := by
    induction l generalizing e with
    | nil => exact h.inside
    | cons x l ih =>
      rw [Ranges.coalesceFrom]
      split
      next hex => exact ih (h.join hex)
      next =>
        intro y hy
        rcases List.mem_cons.1 hy with rfl | hy
        · exact h.inside _ List.mem_cons_self
        · exact ih h.tail y hy
  positive := h.positive.coalesceFrom
  sorted := h.sorted.coalesceFrom.sorted

theorem coalesce (h : Layout a b l) : Layout a b (coalesce l) := by
  cases l with
  | nil => exact h
  | cons e l => exact h.coalesceFrom

end Layout

def leftOf (e : Extent) (a : ℤ) : List Extent :=
  if a = e.start then [] else [⟨e.start, (a - e.start).toNat⟩]

def rightOf (e : Extent) (a : ℤ) : List Extent :=
  if a = e.stop then [] else [⟨a, (e.stop - a).toNat⟩]

theorem cells_leftOf : cells (leftOf e a) = (⟨e.start, (a - e.start).toNat⟩ : Extent).cells := by
  unfold leftOf
  split
  next h => rw [Extent.cells_of_len_eq_zero (by simp only; omega), cells_nil]
  next => simp

theorem cells_rightOf : cells (rightOf e a) = (⟨a, (e.stop - a).toNat⟩ : Extent).cells := by
  unfold rightOf
  split
  next h => rw [Extent.cells_of_len_eq_zero (by simp only; omega), cells_nil]
  next => simp

theorem cells_cut (h : e.start ≤ a) (h' : a + n ≤ e.stop) :
    cells (leftOf e a) ++ (⟨a, n⟩ : Extent).cells ++ cells (rightOf e (a + n)) = e.cells := by
  have he : e.stop = e.start + e.len := rfl
  rw [cells_leftOf, cells_rightOf, Extent.cells_append (by simp only [Extent.stop]; omega),
    Extent.cells_append (by simp only [Extent.stop]; push_cast; omega)]
  congr 1
  cases e
  simp only [Extent.stop, Extent.mk.injEq, true_and] at h h' he ⊢
  omega

theorem mem_leftOf (h : x ∈ leftOf e a) :
    x = ⟨e.start, (a - e.start).toNat⟩ ∧ a ≠ e.start := by
  unfold leftOf at h
  split at h
  · cases h
  · exact ⟨List.mem_singleton.1 h, ‹_›⟩

theorem mem_rightOf (h : x ∈ rightOf e a) : x = ⟨a, (e.stop - a).toNat⟩ ∧ a ≠ e.stop := by
  unfold rightOf at h
  split at h
  · cases h
  · exact ⟨List.mem_singleton.1 h, ‹_›⟩

/-- The cells `a`, …, `a + n - 1` of one extent of `l` are taken out, which leaves `l'`. -/
def Carved (l : List Extent) (a : ℤ) (n : ℕ) (l' : List Extent) : Prop :=
  ∃ b e c, l = b ++ e :: c ∧ e.start ≤ a ∧ a + n ≤ e.stop ∧
    l' = b ++ (leftOf e a ++ rightOf e (a + n) ++ c)

namespace Carved

theorem perm_cells (h : Carved l a n l') :
    (cells l).Perm ((⟨a, n⟩ : Extent).cells ++ cells l') := by
  obtain ⟨b, e, c, rfl, he, he', rfl⟩ := h
  simp only [cells_append, cells_cons, ← cells_cut he he', List.append_assoc]
  refine .trans ?_ (List.perm_append_comm_assoc _ _ _)
  refine .append_left _ ?_
  exact List.perm_append_comm_assoc _ _ _

theorem inside {s t : ℤ} (h : Carved l a n l') (hl : Layout s t l) : s ≤ a ∧ a + n ≤ t := by
  obtain ⟨b, e, c, rfl, he, he', rfl⟩ := h
  have hein := hl.inside e (by simp)
  exact ⟨hein.1.trans he, he'.trans hein.2⟩

theorem parts (h : e.start ≤ a) (h' : a + n ≤ e.stop)
    (hx : x ∈ leftOf e a ++ rightOf e (a + n)) :
    0 < x.len ∧ e.start ≤ x.start ∧ x.stop ≤ e.stop := by
  rcases List.mem_append.1 hx with hx | hx
  · obtain ⟨rfl, hne⟩ := mem_leftOf hx
    refine ⟨?_, le_rfl, ?_⟩ <;> simp only [Extent.stop] at * <;> omega
  · obtain ⟨rfl, hne⟩ := mem_rightOf hx
    refine ⟨?_, ?_, ?_⟩ <;> simp only [Extent.stop] at * <;> omega

theorem pairwise_parts (h : e.start ≤ a) :
    (leftOf e a ++ rightOf e (a + n)).Pairwise fun x y ↦ x.stop + (n : ℤ) ≤ y.start := by
  refine List.pairwise_append.2 ⟨?_, ?_, fun x hx y hy ↦ ?_⟩
  · unfold leftOf
    split <;> simp
  · unfold rightOf
    split <;> simp
  · rw [(mem_leftOf hx).1, (mem_rightOf hy).1]
    simp only [Extent.stop]
    omega

theorem layout {s t : ℤ} (h : Carved l a n l') (hl : Layout s t l) : Layout s t l' := by
  obtain ⟨b, e, c, rfl, he, he', rfl⟩ := h
  have hein := hl.inside e (by simp)
  have hmem : ∀ x ∈ b ++ (leftOf e a ++ rightOf e (a + n) ++ c),
      x ∈ b ++ e :: c ∨ x ∈ leftOf e a ++ rightOf e (a + n) := by
    intro x hx
    simp only [List.mem_append, List.mem_cons] at hx ⊢
    tauto
  constructor
  · intro x hx
    rcases hmem x hx with hx | hx
    · exact hl.inside x hx
    · have hx' := (parts he he' hx).2
      omega
  · intro x hx
    rcases hmem x hx with hx | hx
    · exact hl.positive x hx
    · exact (parts he he' hx).1
  · exact hl.sorted.replace ((pairwise_parts he).imp fun h ↦ by omega)
      fun x hx ↦ (parts he he' hx).2

theorem separated (h : Carved l a n l') (hl : Separated l) (hn : 0 < n) : Separated l' := by
  obtain ⟨b, e, c, rfl, he, he', rfl⟩ := h
  exact hl.replace ((pairwise_parts he).imp fun h ↦ by omega) fun x hx ↦ (parts he he' hx).2

theorem eq_of_start (h : Carved l e.start 0 l') (he : e ∈ l) (hl : Separated l)
    (hpos : Positive l) : l' = l := by
  obtain ⟨b, f, c, rfl, hf, hf', rfl⟩ := h
  have hfpos := hpos e he
  have hstop : e.stop = e.start + e.len := rfl
  have hef : e = f := by
    rcases hl.trichotomy he (f := f) (by simp) with h | h | h
    · exact h
    · omega
    · simp only [Nat.cast_zero, add_zero] at hf'
      omega
  subst hef
  have hright : rightOf e (e.start + (0 : ℕ)) = [e] := by
    rw [rightOf, if_neg (by omega)]
    cases e
    simp only [Extent.stop, Nat.cast_zero, add_zero, List.cons.injEq, Extent.mk.injEq, true_and,
      and_true]
    omega
  rw [hright, leftOf, if_pos rfl]
  rfl

end Carved

end Ranges
