import Mathlib.Data.List.Chain
import Mathlib.Data.List.Induction
import Mathlib.Tactic.Common

namespace Clocked

variable {κ β : Type*}

def ofKey [DecidableEq κ] (k : κ) (l : List (κ × β)) : List β := (l.filter (·.1 = k)).map (·.2)

def keyed (p : κ × List β) : List (κ × β) := p.2.map (p.1, ·)

section

variable [DecidableEq κ] (k : κ)

theorem ofKey_append (l m : List (κ × β)) : ofKey k (l ++ m) = ofKey k l ++ ofKey k m := by
  rw [ofKey, List.filter_append, List.map_append]
  rfl

theorem ofKey_keyed (p : κ × List β) : ofKey k (keyed p) = if p.1 = k then p.2 else [] := by
  split
  case isTrue h => simp [ofKey, keyed, List.filter_map, Function.comp_def, h]
  case isFalse h => simp [ofKey, keyed, List.filter_map, Function.comp_def, h]

theorem ofKey_flatMap (ps : List (κ × List β)) :
    ofKey k (ps.flatMap keyed) = (ps.filter (·.1 = k)).flatMap (·.2) := by
  induction ps with
  | nil => rfl
  | cons p ps ih =>
    rw [List.flatMap_cons, ofKey_append, ofKey_keyed, ih]
    by_cases hk : p.1 = k <;> simp [hk]

theorem getLast?_ofKey {l : List (κ × β)} {x : κ × β} (h : x ∈ l.getLast?) :
    x.2 ∈ (ofKey x.1 l).getLast? := by
  obtain ⟨init, rfl⟩ := List.getLast?_eq_some_iff.mp h
  rw [ofKey_append, show [x] = keyed (x.1, [x.2]) from rfl, ofKey_keyed, if_pos rfl]
  exact List.getLast?_concat

end

theorem getLast?_keyed {l : List (κ × β)} {p : κ × List β} {init : List β} {b : β}
    (h : p.2 = init.concat b) : (p.1, b) ∈ (l ++ keyed p).getLast? := by
  simp [keyed, h]

section

variable (last : β → Bool)

def IsPacket (p : List β) : Prop :=
  ∃ init e, p = init ++ [e] ∧ (∀ b ∈ init, last b = false) ∧ last e = true

def Unfinished (l : List β) : Prop := ∃ b ∈ l.getLast?, last b = false

/-- The key changes only after a word that is marked as the last one. -/
def Unbroken (l : List (κ × β)) : Prop := l.IsChain fun x y ↦ last x.2 = false → y.1 = x.1

/-- The words are whole packets, each of one key, and at most one unfinished packet at the end; those
of a key are the first words of `made` of that key. -/
structure Framed [DecidableEq κ] (l : List (κ × β)) (made : κ → List β)
    (packets : List (κ × List β)) (rest : κ × List β) : Prop where
  words : l = packets.flatMap keyed ++ keyed rest
  isPacket : ∀ p ∈ packets, IsPacket last p.2
  unfinished : ∀ b ∈ rest.2, last b = false
  inOrder : ∀ k, (packets.filter (·.1 = k)).flatMap (·.2) ++ (if rest.1 = k then rest.2 else []) <+:
    made k

/-- The first words of the packets; `first` tells whether one is about to start. -/
def heads (first : Bool) : List β → List β
  | [] => []
  | b :: l => (if first then [b] else []) ++ heads (last b) l

def startsAfter (first : Bool) (l : List β) : Bool := (l.getLast?.map last).getD first

variable {last}

theorem heads_append (first : Bool) (l m : List β) :
    heads last first (l ++ m) = heads last first l ++ heads last (startsAfter last first l) m := by
  induction l generalizing first with
  | nil => rfl
  | cons b l ih =>
    have hs : startsAfter last first (b :: l) = startsAfter last (last b) l := by
      cases l with
      | nil => rfl
      | cons c l => simp only [startsAfter, List.getLast?_cons, Option.map_some, Option.getD_some]
    rw [List.cons_append, heads, heads, ih, hs, List.append_assoc]

theorem heads_inside {l : List β} (h : ∀ b ∈ l, last b = false) : heads last false l = [] := by
  induction l with
  | nil => rfl
  | cons b l ih =>
    rw [heads, h b List.mem_cons_self, ih fun c hc ↦ h c (List.mem_cons_of_mem b hc)]
    rfl

theorem heads_unfinished {l : List β} (h : ∀ b ∈ l, last b = false) :
    heads last true l = l.head?.toList := by
  cases l with
  | nil => rfl
  | cons b l =>
    rw [heads, h b List.mem_cons_self, heads_inside fun c hc ↦ h c (List.mem_cons_of_mem b hc)]
    rfl

theorem heads_packet {p : List β} (h : IsPacket last p) : heads last true p = p.head?.toList := by
  obtain ⟨init, e, rfl, hinit, -⟩ := h
  rw [heads_append, heads_unfinished hinit]
  cases init with
  | nil => rfl
  | cons b init =>
    have hs : startsAfter last true (b :: init) = false := by
      rw [startsAfter, List.getLast?_eq_some_getLast (List.cons_ne_nil b init)]
      exact hinit _ (List.getLast_mem _)
    rw [hs, heads]
    rfl

theorem heads_packets {ps : List (List β)} (h : ∀ p ∈ ps, IsPacket last p) {rest : List β}
    (hr : ∀ b ∈ rest, last b = false) :
    heads last true (ps.flatten ++ rest) = ps.filterMap List.head? ++ rest.head?.toList := by
  induction ps with
  | nil => exact heads_unfinished hr
  | cons p ps ih =>
    have hp := h p List.mem_cons_self
    have hs : startsAfter last true p = true := by
      obtain ⟨init, e, rfl, -, he⟩ := hp
      rw [startsAfter, List.getLast?_concat]
      exact he
    rw [List.flatten_cons, List.append_assoc, heads_append, heads_packet hp, hs,
      ih fun q hq ↦ h q (List.mem_cons_of_mem p hq)]
    cases p with
    | nil => rfl
    | cons b p => rfl

theorem unfinished_concat {l : List β} {b : β} : Unfinished last (l ++ [b]) ↔ last b = false := by
  simp [Unfinished]

theorem unbroken_concat {l : List (κ × β)} {x : κ × β} :
    Unbroken last (l ++ [x]) ↔
      Unbroken last l ∧ ∀ y ∈ l.getLast?, last y.2 = false → x.1 = y.1 := by
  simp [Unbroken, List.isChain_append]

theorem Unbroken.packets [Nonempty κ] {l : List (κ × β)} (h : Unbroken last l) :
    ∃ (packets : List (κ × List β)) (rest : κ × List β),
      l = packets.flatMap keyed ++ keyed rest ∧ (∀ p ∈ packets, IsPacket last p.2) ∧
        ∀ b ∈ rest.2, last b = false := by
  induction l using List.reverseRecOn with
  | nil =>
    obtain ⟨k⟩ := ‹Nonempty κ›
    exact ⟨[], (k, []), rfl, by simp, by simp⟩
  | append_singleton l x ih =>
    obtain ⟨hl, hx⟩ := unbroken_concat.mp h
    obtain ⟨packets, rest, rfl, hp, hr⟩ := ih hl
    have hkey : keyed rest = keyed (x.1, rest.2) := by
      rcases List.eq_nil_or_concat rest.2 with hnil | ⟨init, b, hb⟩
      · simp [keyed, hnil]
      · rw [hx _ (getLast?_keyed hb) (hr b (by simp [hb]))]
    have hwords : packets.flatMap keyed ++ keyed rest ++ [x] =
        packets.flatMap keyed ++ keyed (x.1, rest.2 ++ [x.2]) := by
      rw [hkey]
      simp [keyed]
    cases hlast : last x.2
    · refine ⟨packets, (x.1, rest.2 ++ [x.2]), hwords, hp, ?_⟩
      intro b hb
      rcases List.mem_append.mp hb with hb | hb
      · exact hr b hb
      · rwa [List.mem_singleton.mp hb]
    · refine ⟨packets ++ [(x.1, rest.2 ++ [x.2])], (x.1, []), ?_, ?_, by simp⟩
      · rw [hwords]
        simp [keyed]
      · intro p hp'
        rcases List.mem_append.mp hp' with hp' | hp'
        · exact hp p hp'
        · rw [List.mem_singleton.mp hp']
          exact ⟨rest.2, x.2, rfl, hr, hlast⟩

theorem Unbroken.framed [Nonempty κ] [DecidableEq κ] {l : List (κ × β)} {made : κ → List β}
    (h : Unbroken last l) (hm : ∀ k, ofKey k l <+: made k) :
    ∃ packets rest, Framed last l made packets rest := by
  obtain ⟨packets, rest, rfl, hp, hr⟩ := h.packets
  refine ⟨packets, rest, rfl, hp, hr, fun k ↦ ?_⟩
  rw [← ofKey_flatMap, ← ofKey_keyed, ← ofKey_append]
  exact hm k

theorem Framed.getLast? [DecidableEq κ] {l : List (κ × β)} {made : κ → List β}
    {packets : List (κ × List β)} {rest : κ × List β} (h : Framed last l made packets rest)
    (hne : rest.2 ≠ []) : ∃ x ∈ l.getLast?, x.1 = rest.1 ∧ last x.2 = false := by
  obtain ⟨init, b, hb⟩ := (List.eq_nil_or_concat rest.2).resolve_left hne
  refine ⟨(rest.1, b), ?_, rfl, h.unfinished b (by simp [hb])⟩
  rw [h.words]
  exact getLast?_keyed hb

end

end Clocked
