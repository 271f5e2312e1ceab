import Mathlib.Data.Fintype.EquivFin
import QdmaTrafficGen.Clocked.Index

namespace Clocked

variable {A S : Type*}

/-- `slotOf` assigns slots to some of the addresses and `taken` marks exactly the slots that are
assigned, each to one address. -/
structure SlotTable (slotOf : A → Option S) (taken : S → Bool) : Prop where
  injective : ∀ a b s, slotOf a = some s → slotOf b = some s → a = b
  taken_iff : ∀ s, taken s = true ↔ ∃ a, slotOf a = some s

namespace SlotTable

variable {slotOf : A → Option S} {taken : S → Bool}

theorem nothing : SlotTable (fun _ : A ↦ (none : Option S)) (fun _ ↦ false) :=
  ⟨by simp, by simp⟩

theorem taken_of_slot (h : SlotTable slotOf taken) {a : A} {s : S} (ha : slotOf a = some s) :
    taken s = true := (h.taken_iff s).mpr ⟨a, ha⟩

theorem exists_unique (h : SlotTable slotOf taken) {s : S} (hs : taken s = true) :
    ∃! a, slotOf a = some s := by
  obtain ⟨a, ha⟩ := (h.taken_iff s).mp hs
  exact ⟨a, ha, fun b hb ↦ h.injective b a s hb ha⟩

theorem all_taken [Fintype A] [Fintype S] (h : SlotTable slotOf taken)
    (hc : Fintype.card S ≤ Fintype.card A) (ha : ∀ a, (slotOf a).isSome = true) (s : S) :
    taken s = true := by
  have hinj : Function.Injective fun a ↦ (slotOf a).get (ha a) := by
    intro a b hab
    have hb : slotOf b = some ((slotOf a).get (ha a)) := by
      rw [show (slotOf a).get (ha a) = (slotOf b).get (ha b) from hab, Option.some_get]
    exact h.injective a b _ (Option.some_get (ha a)).symm hb
  have hcard := le_antisymm (Fintype.card_le_of_injective _ hinj) hc
  obtain ⟨a, rfl⟩ := ((Fintype.bijective_iff_injective_and_card _).mpr ⟨hinj, hcard⟩).surjective s
  exact h.taken_of_slot (Option.some_get (ha a)).symm

variable [DecidableEq A] [DecidableEq S]

theorem assign_iff (h : SlotTable slotOf taken) {a : A} (ha : slotOf a = none) (s : S) :
    SlotTable (Function.update slotOf a (some s)) (Function.update taken s true) ↔
      taken s = false := by
  constructor
  · intro h'
    by_contra hs
    obtain ⟨b, hb⟩ := (h.taken_iff s).mp (by simpa using hs)
    have hba : b ≠ a := by
      rintro rfl
      simp [ha] at hb
    exact hba (h'.injective b a s (by rw [Function.update_of_ne hba, hb])
      (Function.update_self ..))
  · intro hs
    have hold : ∀ b, slotOf b ≠ some s := by
      intro b hb
      simp [h.taken_of_slot hb] at hs
    refine ⟨?_, ?_⟩
    · intro b c t hb hc
      rw [update_some_eq_some] at hb hc
      obtain ⟨rfl, rfl⟩ | ⟨-, hb⟩ := hb
      · obtain ⟨rfl, -⟩ | ⟨-, hc⟩ := hc
        · rfl
        · exact absurd hc (hold c)
      · obtain ⟨rfl, rfl⟩ | ⟨-, hc⟩ := hc
        · exact absurd hb (hold b)
        · exact h.injective b c t hb hc
    · intro t
      simp only [update_some_eq_some]
      by_cases hts : t = s
      · rw [hts, Function.update_self]
        exact iff_of_true rfl ⟨a, .inl ⟨rfl, rfl⟩⟩
      · rw [Function.update_of_ne hts, h.taken_iff]
        constructor
        · rintro ⟨b, hb⟩
          refine ⟨b, .inr ⟨?_, hb⟩⟩
          rintro rfl
          cases ha.symm.trans hb
        · rintro ⟨b, ⟨-, hst⟩ | ⟨-, hb⟩⟩
          · exact absurd hst.symm hts
          · exact ⟨b, hb⟩

theorem release (h : SlotTable slotOf taken) {a : A} {s : S} (ha : slotOf a = some s) :
    SlotTable (Function.update slotOf a none) (Function.update taken s false) := by
  refine ⟨?_, ?_⟩
  · intro b c t hb hc
    rw [update_none_eq_some] at hb hc
    exact h.injective b c t hb.2 hc.2
  · intro t
    simp only [update_none_eq_some]
    by_cases hts : t = s
    · rw [hts, Function.update_self]
      refine iff_of_false Bool.false_ne_true ?_
      rintro ⟨b, hba, hb⟩
      exact hba (h.injective b a s hb ha)
    · rw [Function.update_of_ne hts, h.taken_iff]
      constructor
      · rintro ⟨b, hb⟩
        refine ⟨b, ?_, hb⟩
        rintro rfl
        exact hts (Option.some.inj (hb.symm.trans ha))
      · rintro ⟨b, -, hb⟩
        exact ⟨b, hb⟩

end SlotTable

end Clocked
