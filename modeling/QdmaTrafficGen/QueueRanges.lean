import QdmaTrafficGen.ResourceMgmt

open Ranges

namespace QdmaTrafficGen.ResourceMgmt

def extents (l : List ResourceEntry) : List Extent := l.map ResourceEntry.extent

/-- The free list is laid out in the queues from `s` to `t`, all of which fit into an `int`. -/
structure FreeIn (s t : ℤ) (l : List ResourceEntry) : Prop where
  layout : Layout s t (extents l)
  nonneg : 0 ≤ s
  start_le : s ≤ t
  le : t ≤ 2 ^ 31

variable {s t z qbase : ℤ} {qmax : ℕ} {e x : ResourceEntry} {l free : List ResourceEntry}
  {mem mem' : List Bool} {ok : Bool} {p : Place}

theorem u32_of_lt (h : 0 ≤ z) (h' : z < 2 ^ 32) : (u32 z : ℤ) = z := by
  unfold u32
  omega

theorem s32_of_lt (h : -2 ^ 31 ≤ z) (h' : z < 2 ^ 31) : s32 z = z := by
  unfold s32
  omega

theorem calloc_false (h : qdmaCalloc mem = (ok, mem')) (hok : ok = false) : false ∈ mem := by
  cases mem with
  | nil => cases hok ▸ h
  | cons b mem =>
    obtain ⟨rfl, -⟩ := Prod.mk.inj h
    exact hok ▸ List.mem_cons_self

theorem calloc_rest (h : qdmaCalloc mem = (ok, mem')) (hm : false ∈ mem') : false ∈ mem := by
  cases mem with
  | nil =>
    obtain ⟨-, rfl⟩ := Prod.mk.inj h
    cases hm
  | cons b mem =>
    obtain ⟨-, rfl⟩ := Prod.mk.inj h
    exact .tail _ hm

theorem extents_append (l l' : List ResourceEntry) : extents (l ++ l') = extents l ++ extents l' :=
  List.map_append

theorem extents_insertNode : extents (insertNode e l) = Ranges.insert e.extent (extents l) := by
  induction l with
  | nil => rfl
  | cons node l ih =>
    have hx : extents (node :: l) = node.extent :: extents l := rfl
    rw [insertNode, hx, Ranges.insert]
    by_cases h : node.qbase > e.qbase
    · rw [if_pos h, if_pos (by exact h)]
      rfl
    · rw [if_neg h, if_neg (by exact h), ← ih]
      rfl

namespace FreeIn

theorem tail (h : FreeIn s t (e :: l)) : FreeIn s t l := ⟨h.layout.tail, h.nonneg, h.start_le, h.le⟩

theorem bounds (h : FreeIn s t l) (hx : x ∈ l) :
    0 ≤ s ∧ s ≤ x.qbase ∧ 0 < x.totalQ ∧ x.qbase + x.totalQ ≤ t ∧ t ≤ 2 ^ 31 := by
  have hx := List.mem_map_of_mem (f := ResourceEntry.extent) hx
  have hin := h.layout.inside _ hx
  have hpos := h.layout.positive _ hx
  exact ⟨h.nonneg, hin.1, hpos, hin.2, h.le⟩

theorem extents_stretchNode (h : FreeIn s t (e :: l)) :
    extents (stretchNode e l) = coalesceFrom e.extent (extents l) := by
  induction l generalizing e with
  | nil => rfl
  | cons node l ih =>
    have hx : extents (node :: l) = node.extent :: extents l := rfl
    have he := h.bounds List.mem_cons_self
    have hnode := h.bounds (.tail _ List.mem_cons_self)
    -- in the range of the device nothing wraps around
    have hiff : u32 (e.qbase + e.totalQ) = u32 node.qbase ↔ e.extent.stop = node.extent.start := by
      rw [← Nat.cast_inj (R := ℤ), u32_of_lt (by omega) (by omega), u32_of_lt (by omega) (by omega)]
      rfl
    rw [stretchNode, hx, coalesceFrom]
    by_cases hj : e.extent.stop = node.extent.start
    · have hjoin : u32 (e.totalQ + node.totalQ) = e.totalQ + node.totalQ := by
        have hstop : e.qbase + e.totalQ = node.qbase := hj
        have hu : (u32 (e.totalQ + node.totalQ) : ℤ) = e.totalQ + node.totalQ :=
          u32_of_lt (by omega) (by omega)
        exact_mod_cast hu
      rw [if_pos (hiff.2 hj), if_pos hj, hjoin]
      exact ih ⟨h.layout.join hj, h.nonneg, h.start_le, h.le⟩
    · rw [if_neg (hj ∘ hiff.1), if_neg hj, ← ih h.tail]
      rfl

theorem extents_defragment (h : FreeIn s t l) : extents (defragment l) = coalesce (extents l) := by
  cases l with
  | nil => rfl
  | cons e l => exact h.extents_stretchNode

end FreeIn

/-- What `qdma_get_resource_node` does to the free list when it takes the queues from `qbase` on out
of the node at `p`, or fails to. -/
structure Fragmented (qmax : ℕ) (qbase : ℤ) (p : Place) (mem : List Bool)
    (r : Option Place × List ResourceEntry × List Bool) : Prop where
  found : ∀ p', r.1 = some p' → r.2.1 = p'.list ∧ p'.node = ⟨qbase, qmax⟩ ∧
    Carved (extents p.list) qbase qmax (extents p'.del)
  failed : r.1 = none → false ∈ mem ∧
    (r.2.1 = p.list ∨ Carved (extents p.list) qbase 0 (extents r.2.1))
  mem_of : false ∈ r.2.2 → false ∈ mem

theorem Fragmented.of_found {p' : Place} (left right : List ResourceEntry)
    (hbefore : p'.before = p.before ++ left) (hafter : p'.after = right ++ p.after)
    (hnode : p'.node = ⟨qbase, qmax⟩)
    (hle : p.node.qbase ≤ qbase) (hge : qbase + qmax ≤ p.node.qbase + p.node.totalQ)
    (hleft : extents left = leftOf p.node.extent qbase)
    (hright : extents right = rightOf p.node.extent (qbase + qmax))
    (hmem : false ∈ mem' → false ∈ mem) :
    Fragmented qmax qbase p mem (some p', p'.list, mem') where
  found := by
    rintro _ ⟨⟩
    refine ⟨rfl, hnode, extents p.before, p.node.extent, extents p.after, ?_, hle, hge, ?_⟩
    · rw [Place.list, extents_append]
      rfl
    · rw [Place.del, hbefore, hafter, ← hleft, ← hright]
      simp only [extents_append, List.append_assoc]
  failed h := by cases h
  mem_of := hmem

theorem Fragmented.of_failed (hm : false ∈ mem) (hmem : false ∈ mem' → false ∈ mem) :
    Fragmented qmax qbase p mem (none, p.list, mem') where
  found _ h := by cases h
  failed _ := ⟨hm, .inl rfl⟩
  mem_of := hmem

theorem extents_leftOf (h : 0 ≤ e.qbase) (hlt : e.qbase < z) (hz : z ≤ 2 ^ 31) :
    extents [⟨e.qbase, u32 (z - e.qbase)⟩] = leftOf e.extent z := by
  have hu : (u32 (z - e.qbase) : ℤ) = z - e.qbase := u32_of_lt (by omega) (by omega)
  have hn : (z - e.qbase).toNat = u32 (z - e.qbase) := by omega
  rw [leftOf, if_neg (by exact hlt.ne')]
  simp only [extents, List.map_cons, List.map_nil, ResourceEntry.extent, hn]

theorem extents_rightOf {w : ℤ} (h : 0 ≤ z) (hw : 0 < w) (he : z + w = e.qbase + e.totalQ)
    (hle : z + w ≤ 2 ^ 31) : extents [⟨s32 z, u32 w⟩] = rightOf e.extent z := by
  have hu : (u32 w : ℤ) = w := u32_of_lt (by omega) (by omega)
  have hstop : e.extent.stop = z + w := he.symm
  have hn : (z + w - z).toNat = u32 w := by omega
  rw [rightOf, if_neg (by omega), hstop, hn, s32_of_lt (by omega) (by omega)]
  rfl

theorem fragmentFreeList_spec (h : FreeIn s t p.list) (hle : p.node.qbase ≤ qbase)
    (hge : qbase + qmax ≤ p.node.qbase + p.node.totalQ) :
    Fragmented qmax qbase p mem (fragmentFreeList qmax qbase p mem) := by
  have hb := h.bounds (x := p.node) (by simp [Place.list])
  have hstart : p.node.extent.start = p.node.qbase := rfl
  have hstop : p.node.extent.stop = p.node.qbase + p.node.totalQ := rfl
  have hu : (u32 (p.node.totalQ - qmax) : ℤ) = p.node.totalQ - qmax := u32_of_lt (by omega) (by omega)
  rcases hc : qdmaCalloc mem with ⟨ok, mem₁⟩
  rw [fragmentFreeList]
  by_cases h₁ : qbase = p.node.qbase ∧ qmax = p.node.totalQ
  · rw [if_pos h₁]
    refine .of_found [] [] (List.append_nil _).symm rfl ?_ hle hge ?_ ?_ id
    · rw [h₁.1, h₁.2]
    · exact (if_pos h₁.1).symm
    · exact (if_pos (by omega)).symm
  rw [if_neg h₁]
  by_cases h₂ : qbase = p.node.qbase ∧ qmax ≠ p.node.totalQ
  · rw [if_pos h₂, hc]
    cases ok
    · exact .of_failed (calloc_false hc rfl) (calloc_rest hc)
    have hsub : u32 (p.node.totalQ - u32 (p.node.totalQ - qmax)) = qmax := by
      have hu' : (u32 (p.node.totalQ - u32 (p.node.totalQ - qmax)) : ℤ) = qmax := by
        rw [hu, sub_sub_cancel]
        exact u32_of_lt (by omega) (by omega)
      exact_mod_cast hu'
    refine .of_found [] [_] (List.append_nil _).symm rfl ?_ hle hge ?_ ?_
      (calloc_rest hc)
    · rw [hsub, h₂.1]
    · exact (if_pos h₂.1).symm
    · rw [h₂.1]
      exact extents_rightOf (by omega) (by omega) (by omega) (by omega)
  rw [if_neg h₂]
  have hlt : p.node.qbase < qbase := by omega
  have hleft := extents_leftOf (e := p.node) (by omega) hlt (by omega)
  have hu' : (u32 (qbase - p.node.qbase) : ℤ) = qbase - p.node.qbase :=
    u32_of_lt (by omega) (by omega)
  have hend : u32 (qbase + qmax) = u32 (p.node.qbase + p.node.totalQ) ↔
      qbase + qmax = p.node.qbase + p.node.totalQ := by
    rw [← Nat.cast_inj (R := ℤ), u32_of_lt (by omega) (by omega), u32_of_lt (by omega) (by omega)]
  by_cases h₃ : qbase > p.node.qbase ∧
      u32 (qbase + qmax) = u32 (p.node.qbase + p.node.totalQ)
  · rw [if_pos h₃, hc]
    cases ok
    · exact .of_failed (calloc_false hc rfl) (calloc_rest hc)
    · exact .of_found _ [] rfl rfl rfl hle hge hleft (if_pos (hend.1 h₃.2)).symm
        (calloc_rest hc)
  rw [if_neg h₃, hc]
  have hne : qbase + qmax ≠ p.node.qbase + p.node.totalQ := fun hq ↦ h₃ ⟨hlt, hend.2 hq⟩
  cases ok
  · exact .of_failed (calloc_false hc rfl) (calloc_rest hc)
  have hrest : (u32 (p.node.totalQ - u32 (qbase - p.node.qbase)) : ℤ) =
      p.node.qbase + p.node.totalQ - qbase := by
    rw [hu', u32_of_lt] <;> omega
  simp only [Bool.not_true, Bool.false_eq_true, if_false]
  rcases hc' : qdmaCalloc mem₁ with ⟨ok', mem₂⟩
  cases ok'
  · -- the node is left in two parts
    refine .mk (fun _ h ↦ by cases h) (fun _ ↦ ⟨calloc_rest hc (calloc_false hc' rfl), .inr ?_⟩)
      (calloc_rest hc ∘ calloc_rest hc')
    refine ⟨extents p.before, p.node.extent, extents p.after, ?_, hle, by omega, ?_⟩
    · rw [Place.list, extents_append]
      rfl
    · have hright : rightOf p.node.extent (qbase + (0 : ℕ)) =
          [⟨qbase, u32 (p.node.totalQ - u32 (qbase - p.node.qbase))⟩] := by
        rw [rightOf, if_neg (by omega)]
        congr 2 <;> omega
      rw [hright, ← hleft]
      simp only [Bool.not_false, if_true, Place.list, extents_append, List.append_assoc]
      rfl
  · refine .of_found _ [_] rfl rfl rfl hle hge hleft ?_
      (calloc_rest hc ∘ calloc_rest hc')
    exact extents_rightOf (by omega) (by omega) (by omega) (by omega)

variable {before : List ResourceEntry} {best : Option Place}

theorem requestedNode_some (h : requestedNode qmax qbase before l = some p) :
    p.list = before ++ l ∧ qbase ≥ p.node.qbase ∧
      u32 (p.node.qbase + p.node.totalQ) ≥ u32 (qbase + qmax) := by
  induction l generalizing before with
  | nil => cases h
  | cons node l ih =>
    rw [requestedNode] at h
    split at h
    next hn =>
      obtain rfl := Option.some.inj h
      exact ⟨rfl, hn⟩
    next =>
      obtain ⟨hl, hp⟩ := ih h
      exact ⟨by rw [hl, List.append_assoc, List.singleton_append], hp⟩

theorem requestedNode_none (h : requestedNode qmax qbase before l = none) (hx : x ∈ l) :
    ¬(qbase ≥ x.qbase ∧ u32 (x.qbase + x.totalQ) ≥ u32 (qbase + qmax)) := by
  induction l generalizing before with
  | nil => cases hx
  | cons node l ih =>
    rw [requestedNode] at h
    split at h
    next => cases h
    next hn =>
      rcases List.mem_cons.1 hx with rfl | hx
      · exact hn
      · exact ih h hx

/-- The best node among those seen so far, which `rest` follows. -/
def BestOf (qmax : ℕ) (seen rest : List ResourceEntry) : Option Place → Prop
  | none => ∀ x ∈ seen, x.totalQ < qmax
  | some b => b.list = seen ++ rest ∧ qmax ≤ b.node.totalQ ∧
      ∀ x ∈ seen, qmax ≤ x.totalQ → b.node.totalQ ≤ x.totalQ

theorem BestOf.bestFitNode (h : BestOf qmax before l best) :
    BestOf qmax (before ++ l) [] (bestFitNode qmax best before l) := by
  induction l generalizing before best with
  | nil => rwa [List.append_nil]
  | cons node l ih =>
    have hcons : before ++ node :: l = before ++ [node] ++ l := by
      rw [List.append_assoc, List.singleton_append]
    rw [hcons, ResourceMgmt.bestFitNode]
    split
    next hn =>
      refine ih ⟨hcons, hn.1, fun x hx hle ↦ ?_⟩
      rcases List.mem_append.1 hx with hx | hx
      · cases best with
        | none => exact absurd (h x hx) (by omega)
        | some b => exact (of_decide_eq_true hn.2).trans (h.2.2 x hx hle)
      · rw [List.mem_singleton.1 hx]
    next hn =>
      refine ih ?_
      cases best with
      | none =>
        intro x hx
        rcases List.mem_append.1 hx with hx | hx
        · exact h x hx
        · obtain rfl := List.mem_singleton.1 hx
          exact not_le.1 fun hle ↦ hn ⟨hle, rfl⟩
      | some b =>
        refine ⟨h.1.trans hcons, h.2.1, fun x hx hle ↦ ?_⟩
        rcases List.mem_append.1 hx with hx | hx
        · exact h.2.2 x hx hle
        · obtain rfl := List.mem_singleton.1 hx
          by_contra hlt
          exact hn ⟨hle, decide_eq_true (by omega)⟩

/-- A node that has all the queues that are asked for. -/
def Holds (qmax : ℕ) (qbase : ℤ) (x : ResourceEntry) : Prop :=
  0 ≤ qbase ∧ x.qbase ≤ qbase ∧ qbase + qmax ≤ x.qbase + x.totalQ

/-- The queues from `a` on are given to a request for `qmax` queues, if possible from `qbase` on: a
smallest node serves the request when no node has the queues that it asks for. -/
def Chosen (qmax : ℕ) (qbase : ℤ) (free : List ResourceEntry) (a : ℤ) : Prop :=
  (∃ x ∈ free, Holds qmax qbase x) ∧ a = qbase ∨
  (∀ x ∈ free, ¬Holds qmax qbase x) ∧ ∃ x ∈ free, x.qbase = a ∧ qmax ≤ x.totalQ ∧
    ∀ y ∈ free, qmax ≤ y.totalQ → x.totalQ ≤ y.totalQ

structure Got (qmax : ℕ) (qbase : ℤ) (free : List ResourceEntry) (mem : List Bool)
    (r : Option Place × List ResourceEntry × List Bool) : Prop where
  found : ∀ p, r.1 = some p → p.node.totalQ = qmax ∧ Chosen qmax qbase free p.node.qbase ∧
    Carved (extents free) p.node.qbase qmax (extents p.del)
  failed : r.1 = none → r.2.1 = free ∧ (∀ x ∈ free, x.totalQ < qmax) ∨
    false ∈ mem ∧ (r.2.1 = free ∨ ∃ a, Carved (extents free) a 0 (extents r.2.1))
  mem_of : false ∈ r.2.2 → false ∈ mem

def freeQueues (l : List ResourceEntry) : List ℤ := cells (extents l)

theorem FreeIn.carved {a : ℤ} {n : ℕ} {free' : List ResourceEntry} (h : FreeIn s t free)
    (hc : Carved (extents free) a n (extents free')) : FreeIn s t free' :=
  ⟨hc.layout h.layout, h.nonneg, h.start_le, h.le⟩

theorem Fragmented.got {a : ℤ} {r : Option Place × List ResourceEntry × List Bool}
    (h : Fragmented qmax a p mem r) (hp : p.list = free) (ha : Chosen qmax qbase free a) :
    Got qmax qbase free mem r where
  found p' hp' := by
    obtain ⟨-, hnode, hc⟩ := h.found p' hp'
    rw [hnode, ← hp]
    exact ⟨rfl, hp.symm ▸ ha, hc⟩
  failed hr := by
    obtain ⟨hm, hr⟩ := h.failed hr
    rw [hp] at hr
    exact .inr ⟨hm, hr.imp_right fun hc ↦ ⟨a, hc⟩⟩
  mem_of := h.mem_of

theorem getResourceNode_spec (qmax : ℕ) (qbase : ℤ) (mem : List Bool) (h : FreeIn s t free)
    (hq : qbase + qmax < 2 ^ 32) :
    Got qmax qbase free mem (getResourceNode qmax qbase free mem) := by
  have hholds (x) (hx : x ∈ free) (h0 : 0 ≤ qbase) : Holds qmax qbase x ↔
      qbase ≥ x.qbase ∧ u32 (x.qbase + x.totalQ) ≥ u32 (qbase + qmax) := by
    have hb := h.bounds hx
    have hl : (u32 (x.qbase + x.totalQ) : ℤ) = x.qbase + x.totalQ := u32_of_lt (by omega) (by omega)
    have hr : (u32 (qbase + qmax) : ℤ) = qbase + qmax := u32_of_lt (by omega) hq
    unfold Holds
    omega
  rw [getResourceNode]
  rcases hr : (if qbase ≥ 0 then requestedNode qmax qbase [] free else none) with _ | p
  · have hnone : ∀ x ∈ free, ¬Holds qmax qbase x := by
      intro x hx hh
      rw [if_pos hh.1] at hr
      exact requestedNode_none hr hx ((hholds x hx hh.1).1 hh)
    have hbest : BestOf qmax ([] ++ free) [] (bestFitNode qmax none [] free) :=
      BestOf.bestFitNode fun x hx ↦ by cases hx
    rcases hb : bestFitNode qmax none [] free with _ | p
    · rw [hb] at hbest
      exact .mk (fun _ hp ↦ by cases hp) (fun _ ↦ .inl ⟨rfl, hbest⟩) id
    · rw [hb] at hbest
      obtain ⟨hp, hle, hmin⟩ := hbest
      have hp : p.list = free := by rw [hp, List.append_nil, List.nil_append]
      have hmem : p.node ∈ free := by simp [← hp, Place.list]
      exact (fragmentFreeList_spec (hp ▸ h) le_rfl (by omega)).got hp
        (.inr ⟨hnone, p.node, hmem, rfl, hle, hmin⟩)
  · split at hr
    next h0 =>
      obtain ⟨hp, hcond⟩ := requestedNode_some hr
      rw [List.nil_append] at hp
      have hmem : p.node ∈ free := by simp [← hp, Place.list]
      have hh := (hholds p.node hmem h0).2 hcond
      exact (fragmentFreeList_spec (hp ▸ h) hh.2.1 hh.2.2).got hp (.inl ⟨⟨p.node, hmem, hh⟩, rfl⟩)
    next => cases hr

/-- The range of a function lies in the range of the device and shares no queue with the free list. -/
structure Owned (s t : ℤ) (free : List ResourceEntry) (e : ResourceEntry) : Prop where
  le : -1 ≤ e.qbase ∧ e.qbase + e.totalQ ≤ t
  start : e.totalQ ≠ 0 → s ≤ e.qbase
  disjoint : ∀ z ∈ e.queues, z ∉ freeQueues free

theorem queues_of_totalQ_eq_zero (h : e.totalQ = 0) : e.queues = [] :=
  Extent.cells_of_len_eq_zero h

/-- The outcome of `qdma_submit_to_free_list`: nothing changes, or the range is given back and the
free list is defragmented. -/
structure Submitted (s t : ℤ) (e : ResourceEntry) (free : List ResourceEntry) (mem : List Bool)
    (r : ResourceEntry × List ResourceEntry × List Bool) : Prop where
  freeIn : FreeIn s t r.2.1
  outcome : r.1 = e ∧ r.2.1 = free ∧ (e.totalQ = 0 ∨ false ∈ mem) ∨
    r.1 = .none ∧ Separated (extents r.2.1) ∧ e.totalQ ≠ 0
  perm : (r.1.queues ++ freeQueues r.2.1).Perm (e.queues ++ freeQueues free)
  mem_of : false ∈ r.2.2 → false ∈ mem

theorem submitToFreeList_spec (mem : List Bool) (h : FreeIn s t free) (he : Owned s t free e) :
    Submitted s t e free mem (submitToFreeList e free mem) := by
  rcases hc : qdmaCalloc mem with ⟨ok, mem₁⟩
  rw [submitToFreeList]
  by_cases h0 : e.totalQ = 0
  · rw [if_pos h0]
    exact ⟨h, .inl ⟨rfl, rfl, .inl h0⟩, .refl _, id⟩
  rw [if_neg h0, hc]
  cases ok
  · exact ⟨h, .inl ⟨rfl, rfl, .inr (calloc_false hc rfl)⟩, .refl _, calloc_rest hc⟩
  have hins : FreeIn s t (insertNode e free) := by
    refine ⟨?_, h.nonneg, h.start_le, h.le⟩
    rw [extents_insertNode]
    exact h.layout.insert ⟨he.start h0, he.le.2⟩ (Nat.pos_of_ne_zero h0) he.disjoint
  have hdef := hins.extents_defragment
  refine .mk ⟨?_, h.nonneg, h.start_le, h.le⟩ (.inr ⟨rfl, ?_, h0⟩) ?_ (calloc_rest hc)
  · simp only [Bool.not_true, Bool.false_eq_true, if_false, hdef]
    exact hins.layout.coalesce
  · simp only [Bool.not_true, Bool.false_eq_true, if_false, hdef]
    exact hins.layout.sorted.coalesce
  · simp only [Bool.not_true, Bool.false_eq_true, if_false, freeQueues, hdef, cells_coalesce]
    rw [extents_insertNode]
    exact cells_insert

theorem exists_holds {n : ℕ} {a : ℤ} (hl : Separated (extents free)) (hn : 0 < n) (ha : 0 ≤ a)
    (h : ∀ i < n, a + (i : ℕ) ∈ freeQueues free) : ∃ x ∈ free, Holds n a x := by
  obtain ⟨f, hf, hle, hge⟩ := hl.exists_extent hn h
  obtain ⟨x, hx, rfl⟩ := List.mem_map.1 hf
  exact ⟨x, hx, ha, hle, hge⟩

structure Requested (s t : ℤ) (e : ResourceEntry) (free : List ResourceEntry) (mem : List Bool)
    (r : ℤ × ResourceEntry × List ResourceEntry × List Bool) : Prop where
  freeIn : FreeIn s t r.2.2.1
  le : -1 ≤ r.2.1.qbase ∧ r.2.1.qbase + r.2.1.totalQ ≤ t
  start : r.2.1.totalQ ≠ 0 → s ≤ r.2.1.qbase
  -- queues are lost only for want of memory
  perm : ∃ lost, (r.2.1.queues ++ freeQueues r.2.2.1 ++ lost).Perm (e.queues ++ freeQueues free) ∧
    (false ∉ mem → lost = [])

namespace Got

variable {r : Option Place × List ResourceEntry × List Bool}

theorem freeIn_of_none (h : Got qmax qbase free mem r) (hfree : FreeIn s t free)
    (hr : r.1 = none) : FreeIn s t r.2.1 ∧ (freeQueues r.2.1).Perm (freeQueues free) := by
  rcases h.failed hr with ⟨heq, -⟩ | ⟨-, heq | ⟨a, hc⟩⟩
  · rw [heq]
    exact ⟨hfree, .refl _⟩
  · rw [heq]
    exact ⟨hfree, .refl _⟩
  · exact ⟨hfree.carved hc, hc.perm_cells.symm⟩

theorem of_some (h : Got qmax qbase free mem r) (hfree : FreeIn s t free) (hr : r.1 = some p) :
    FreeIn s t p.del ∧ s ≤ p.node.qbase ∧ p.node.qbase + p.node.totalQ ≤ t ∧
      (p.node.queues ++ freeQueues p.del).Perm (freeQueues free) := by
  obtain ⟨hn, -, hc⟩ := h.found p hr
  have hin := hc.inside hfree.layout
  refine ⟨hfree.carved hc, hin.1, hn.symm ▸ hin.2, ?_⟩
  have hnode : p.node.extent = ⟨p.node.qbase, qmax⟩ := by
    rw [← hn]
    rfl
  rw [ResourceEntry.queues, hnode]
  exact hc.perm_cells.symm

end Got

theorem requestQResource_spec (mem : List Bool) (h : FreeIn s t free) (he : Owned s t free e)
    (hq : qbase + qmax < 2 ^ 32) :
    Requested s t e free mem (requestQResource e qmax qbase free mem) := by
  have hsub := submitToFreeList_spec mem h he
  rcases hr : submitToFreeList e free mem with ⟨given, free₁, mem₁⟩
  rw [hr] at hsub
  obtain ⟨hfree₁, hcases, hperm, hmem₁⟩ := hsub
  dsimp only at hfree₁ hcases hperm hmem₁
  have ht : 0 ≤ t := h.nonneg.trans h.start_le
  have hnone : -1 ≤ ResourceEntry.none.qbase ∧
      ResourceEntry.none.qbase + ResourceEntry.none.totalQ ≤ t := by
    simp only [ResourceEntry.none]
    omega
  -- what is not given back is lost as soon as the entry gets another range
  have hlost : false ∉ mem → given.queues = [] := by
    intro hm
    rcases hcases with ⟨rfl, -, h0 | hm'⟩ | ⟨rfl, -⟩
    · exact queues_of_totalQ_eq_zero h0
    · exact absurd hm' hm
    · rfl
  have hperm' {e' : ResourceEntry} {free' : List ResourceEntry}
      (hp : (e'.queues ++ freeQueues free').Perm (freeQueues free₁)) :
      ∃ lost, (e'.queues ++ freeQueues free' ++ lost).Perm (e.queues ++ freeQueues free) ∧
        (false ∉ mem → lost = []) :=
    ⟨given.queues, ((hp.append_right _).trans List.perm_append_comm).trans hperm, hlost⟩
  rw [requestQResource, hr]
  dsimp only
  by_cases h0 : qmax = 0
  · rw [if_pos h0]
    refine .mk hfree₁ ?_ ?_ ⟨[], by rwa [List.append_nil], fun _ ↦ rfl⟩
    · rcases hcases with ⟨rfl, -⟩ | ⟨rfl, -⟩
      · exact he.le
      · exact hnone
    · rcases hcases with ⟨rfl, -⟩ | ⟨rfl, -⟩
      · exact he.start
      · exact fun hne ↦ absurd rfl hne
  rw [if_neg h0]
  have hfound {q : ℤ} {n : ℕ} {mem' : List Bool} {free' : List ResourceEntry} {rv : ℤ}
      {g : Option Place × List ResourceEntry × List Bool} (hg : Got n q free' mem' g)
      (hfree' : FreeIn s t free') (hp' : (freeQueues free').Perm (freeQueues free₁)) {p : Place}
      (hgp : g.1 = some p) : Requested s t e free mem (rv, p.node, p.del, g.2.2) := by
    obtain ⟨hdel, hs, ht', hp⟩ := hg.of_some hfree' hgp
    have hn := hfree'.nonneg
    exact .mk hdel ⟨le_trans (by omega) hs, ht'⟩ (fun _ ↦ hs) (hperm' (hp.trans hp'))
  have hgot := getResourceNode_spec _ _ mem₁ hfree₁ hq
  rcases hg : getResourceNode qmax qbase free₁ mem₁ with ⟨_ | p, free₂, mem₂⟩
  · rw [hg] at hgot
    obtain ⟨hfree₂, hp₂⟩ := hgot.freeIn_of_none hfree₁ rfl
    have hle := h.le
    have hgot' := getResourceNode_spec e.totalQ e.qbase mem₂ hfree₂
      (by have := he.le; omega)
    rcases hg' : getResourceNode e.totalQ e.qbase free₂ mem₂ with ⟨_ | p, free₃, mem₃⟩
    · rw [hg'] at hgot'
      obtain ⟨hfree₃, hp₃⟩ := hgot'.freeIn_of_none hfree₂ rfl
      dsimp only
      rw [hg']
      exact .mk hfree₃ hnone (fun hne ↦ absurd rfl hne) (hperm' (hp₃.trans hp₂))
    · rw [hg'] at hgot'
      dsimp only
      rw [hg']
      exact hfound hgot' hfree₂ hp₂ rfl
  · rw [hg] at hgot
    exact hfound hgot hfree₁ (.refl _) rfl

/-- `n` queues from `a` on, each of which is free or belongs to the entry. -/
def Gap (e : ResourceEntry) (free : List ResourceEntry) (n : ℕ) (a : ℤ) : Prop :=
  ∀ i < n, a + (i : ℕ) ∈ e.queues ++ freeQueues free

theorem Submitted.separated {r : ResourceEntry × List ResourceEntry × List Bool}
    (h : Submitted s t e free mem r) (hm : false ∉ mem)
    (he : e.totalQ ≠ 0 ∨ Separated (extents free)) :
    Separated (extents r.2.1) ∧ (freeQueues r.2.1).Perm (e.queues ++ freeQueues free) := by
  rcases h.outcome with ⟨-, hfree, h0 | hm'⟩ | ⟨hnone, hsep, -⟩
  · rw [hfree, queues_of_totalQ_eq_zero h0]
    exact ⟨he.resolve_left (not_not.2 h0), .refl _⟩
  · exact absurd hm' hm
  · have hp := h.perm
    rw [hnone] at hp
    exact ⟨hsep, hp⟩

theorem requestQResource_iff (h : FreeIn s t free) (he : Owned s t free e)
    (hq : qbase + qmax < 2 ^ 32) (hn : 0 < qmax) (hm : false ∉ mem)
    (hsep : e.totalQ ≠ 0 ∨ Separated (extents free))
    {r : ℤ × ResourceEntry × List ResourceEntry × List Bool}
    (hr : requestQResource e qmax qbase free mem = r) :
    (r.1 = 0 ∧ (∃ a, Gap e free qmax a) ∧ r.2.1.totalQ = qmax ∧
      (Gap e free qmax qbase → r.2.1.qbase = qbase)) ∨
    (r.1 = -errRmNoQueuesLeft ∧ (¬∃ a, Gap e free qmax a) ∧ r.2.1.totalQ = e.totalQ ∧
      (e.totalQ ≠ 0 → r.2.1 = e)) := by
  have hsub := submitToFreeList_spec mem h he
  rcases hs : submitToFreeList e free mem with ⟨given, free₁, mem₁⟩
  rw [hs] at hsub
  obtain ⟨hsep₁, hp₁⟩ := hsub.separated hm hsep
  have hfree₁ : FreeIn s t free₁ := hsub.freeIn
  have hm₁ : false ∉ mem₁ := hm ∘ hsub.mem_of
  have hgap {n : ℕ} {a : ℤ} (hn : 0 < n) (hg : Gap e free n a) : ∃ x ∈ free₁, Holds n a x := by
    have hg' : ∀ i < n, a + (i : ℕ) ∈ freeQueues free₁ := fun i hi ↦ hp₁.mem_iff.2 (hg i hi)
    refine exists_holds hsep₁ hn ?_ hg'
    obtain ⟨f, hf, haf⟩ := mem_cells.1 (hg' 0 hn)
    have hin := hfree₁.layout.inside f hf
    have hs := hfree₁.nonneg
    rw [Extent.mem_cells] at haf
    omega
  rw [requestQResource, hs] at hr
  dsimp only at hr
  rw [if_neg hn.ne'] at hr
  have hgot := getResourceNode_spec _ _ mem₁ hfree₁ hq
  rcases hg : getResourceNode qmax qbase free₁ mem₁ with ⟨_ | p, free₂, mem₂⟩
  · rw [hg] at hgot hr
    dsimp only at hr
    obtain ⟨heq, hlt⟩ : free₂ = free₁ ∧ ∀ x ∈ free₁, x.totalQ < qmax :=
      (hgot.failed rfl).resolve_right fun hc ↦ hm₁ hc.1
    have hnogap : ¬∃ a, Gap e free qmax a := by
      rintro ⟨a, ha⟩
      obtain ⟨x, hx, hh⟩ := hgap hn ha
      have hlt := hlt x hx
      unfold Holds at hh
      omega
    have hm₂ : false ∉ mem₂ := hm₁ ∘ hgot.mem_of
    rw [heq] at hr
    have hle := h.le
    have hgot' := getResourceNode_spec e.totalQ e.qbase mem₂ hfree₁
      (by have := he.le; omega)
    -- the old range is in one of the nodes
    have hold (h0 : e.totalQ ≠ 0) : ∃ x ∈ free₁, Holds e.totalQ e.qbase x :=
      hgap (Nat.pos_of_ne_zero h0) fun i hi ↦ List.mem_append_left _
        (Extent.mem_cells.2 ⟨by simp [ResourceEntry.extent], by
          simp only [ResourceEntry.extent, Extent.stop]
          omega⟩)
    rcases hg' : getResourceNode e.totalQ e.qbase free₁ mem₂ with ⟨_ | p, free₃, mem₃⟩
    · rw [hg'] at hgot' hr
      obtain ⟨-, hlt'⟩ := (hgot'.failed rfl).resolve_right fun hc ↦ hm₂ hc.1
      have h0 : e.totalQ = 0 := by
        by_contra h0
        obtain ⟨x, hx, hh⟩ := hold h0
        have hlt' := hlt' x hx
        unfold Holds at hh
        omega
      rw [← hr]
      exact .inr ⟨rfl, hnogap, h0.symm, fun hne ↦ absurd h0 hne⟩
    · rw [hg'] at hgot' hr
      obtain ⟨hpn, hch, -⟩ := hgot'.found p rfl
      rw [← hr]
      refine .inr ⟨rfl, hnogap, hpn, fun h0 ↦ ?_⟩
      rcases hch with ⟨-, ha⟩ | ⟨hno, -⟩
      · exact ResourceEntry.ext ha hpn
      · obtain ⟨x, hx, hh⟩ := hold h0
        exact absurd hh (hno x hx)
  · rw [hg] at hgot hr
    obtain ⟨hpn, hch, hcarve⟩ := hgot.found p rfl
    rw [← hr]
    refine .inl ⟨rfl, ⟨p.node.qbase, fun i hi ↦ hp₁.mem_iff.1 ?_⟩, hpn, fun hgq ↦ ?_⟩
    · refine hcarve.perm_cells.mem_iff.2 (List.mem_append_left _ (Extent.mem_cells.2 ⟨?_, ?_⟩))
      · simp
      · simp only [Extent.stop]
        omega
    · rcases hch with ⟨-, ha⟩ | ⟨hno, -⟩
      · exact ha
      · obtain ⟨x, hx, hh⟩ := hgap hn hgq
        exact absurd hh (hno x hx)

/-- With memory, the free list stays defragmented unless a request is refused to a function that has
no queues, but still the start of a range. -/
theorem requestQResource_separated (h : FreeIn s t free) (he : Owned s t free e)
    (hq : qbase + qmax < 2 ^ 32) (hm : false ∉ mem) (hsep : Separated (extents free))
    {r : ℤ × ResourceEntry × List ResourceEntry × List Bool}
    (hr : requestQResource e qmax qbase free mem = r)
    (hvain : r.1 ≠ 0 → e.totalQ = 0 → e.qbase < 0) : Separated (extents r.2.2.1) := by
  have hsub := submitToFreeList_spec mem h he
  rcases hs : submitToFreeList e free mem with ⟨given, free₁, mem₁⟩
  rw [hs] at hsub
  have hsep₁ : Separated (extents free₁) := (hsub.separated hm (.inr hsep)).1
  have hfree₁ : FreeIn s t free₁ := hsub.freeIn
  have hm₁ : false ∉ mem₁ := hm ∘ hsub.mem_of
  rw [requestQResource, hs] at hr
  dsimp only at hr
  by_cases hn : qmax = 0
  · rw [if_pos hn] at hr
    rw [← hr]
    exact hsep₁
  rw [if_neg hn] at hr
  have hgot := getResourceNode_spec _ _ mem₁ hfree₁ hq
  rcases hg : getResourceNode qmax qbase free₁ mem₁ with ⟨_ | p, free₂, mem₂⟩
  · rw [hg] at hgot hr
    dsimp only at hr
    obtain ⟨heq, -⟩ : free₂ = free₁ ∧ ∀ x ∈ free₁, x.totalQ < qmax :=
      (hgot.failed rfl).resolve_right fun hc ↦ hm₁ hc.1
    have hm₂ : false ∉ mem₂ := hm₁ ∘ hgot.mem_of
    rw [heq] at hr
    have hle := h.le
    have hgot' := getResourceNode_spec e.totalQ e.qbase mem₂ hfree₁
      (by have := he.le; omega)
    rcases hg' : getResourceNode e.totalQ e.qbase free₁ mem₂ with ⟨_ | p, free₃, mem₃⟩
    · rw [hg'] at hgot' hr
      obtain ⟨heq', -⟩ := (hgot'.failed rfl).resolve_right fun hc ↦ hm₂ hc.1
      rw [← hr]
      exact heq' ▸ hsep₁
    · rw [hg'] at hgot' hr
      obtain ⟨-, hch, hcarve⟩ := hgot'.found p rfl
      rw [← hr] at hvain ⊢
      rcases Nat.eq_zero_or_pos e.totalQ with h0 | h0
      · have hne : -errRmNoQueuesLeft ≠ 0 := by decide
        have hneg := hvain hne h0
        rcases hch with ⟨⟨x, -, hh⟩, -⟩ | ⟨-, x, hx, hxp, -⟩
        · exact absurd hh.1 (by omega)
        · rw [h0, ← hxp] at hcarve
          have hmem := List.mem_map_of_mem (f := ResourceEntry.extent) hx
          have heq : extents p.del = extents free₁ :=
            Carved.eq_of_start (e := x.extent) hcarve hmem hsep₁ hfree₁.layout.positive
          exact heq ▸ hsep₁
      · exact hcarve.separated hsep₁ h0
  · rw [hg] at hgot hr
    obtain ⟨-, -, hcarve⟩ := hgot.found p rfl
    rw [← hr]
    exact hcarve.separated hsep₁ (Nat.pos_of_ne_zero hn)

end QdmaTrafficGen.ResourceMgmt
