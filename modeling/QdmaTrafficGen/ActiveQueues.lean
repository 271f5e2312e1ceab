import QdmaTrafficGen.ResourceRuns

namespace QdmaTrafficGen.ResourceMgmt

def DevEntry.active (d : DevEntry) : ℕ := d.activeH2c + d.activeC2h + d.activeCmpt

namespace ResourceMaster

variable {m : ResourceMaster} {d d' : DevEntry} {f : ℕ} {l₁ l₂ : List DevEntry}

def activeQueues (m : ResourceMaster) : ℕ := (m.devList.map DevEntry.active).sum

/-- By how much a call takes the count of the device away from what the functions count: a decrement
of a counter that is 0, or of no counter at all, lowers it nevertheless, and the queues of a function
that goes away while they are active stay in it. -/
def drift (m : ResourceMaster) : Call × List Bool → ℤ
  | (.entryDestroy f, _) => ((m.getDevEntry f).map DevEntry.active).getD 0
  | (.decrement f ty, _) =>
    match m.getDevEntry f with
    | none => 0
    | some d => if (d.activeQcnt ty).getD 0 = 0 then -1 else 0
  | (.entryCreate _, _) | (.update _ _ _, _) | (.increment _ _, _) => 0

def drifts (m : ResourceMaster) : List (Call × List Bool) → ℤ
  | [] => 0
  | c :: calls => m.drift c + (m.step c).drifts calls

theorem sum_split : ((l₁ ++ d :: l₂).map DevEntry.active).sum =
    d.active + ((l₁ ++ l₂).map DevEntry.active).sum := by
  simp only [List.map_append, List.map_cons, List.sum_append, List.sum_cons]
  omega

theorem activeQueues_putDevEntry (h : m.Counts) (hd : m.getDevEntry f = some d) (d' : DevEntry)
    (hf : d'.funcId = f) :
    (m.putDevEntry d').activeQueues + d.active = m.activeQueues + d'.active := by
  obtain ⟨l₁, l₂, hl, -, -, hput⟩ := exists_split h.ids hd
  rw [activeQueues, activeQueues, hl, hput d' hf, sum_split, sum_split]
  omega

theorem active_setActiveQcnt {n c : ℕ} {ty : DevQType} (h : d.activeQcnt ty = some c) :
    (d.setActiveQcnt n ty).active + c = d.active + n := by
  cases ty with
  | other => cases h
  | h2c | c2h | cmpt =>
    cases h
    simp only [DevEntry.setActiveQcnt, DevEntry.active]
    omega

def CountedBut (m : ResourceMaster) (k : ℤ) : Prop := m.activeQcnt = u32 (m.activeQueues + k)

theorem u32_u32_add (x y : ℤ) : u32 (u32 x + y) = u32 (x + y) := by
  unfold u32
  omega

theorem CountedBut.put (h : m.Counts) {k k' x : ℤ} (hk : m.CountedBut k)
    (hd : m.getDevEntry f = some d) (hf : d'.funcId = f)
    (hact : u32 (d'.active + k') = u32 (d.active + k + x)) :
    u32 (m.activeQcnt + x) = u32 ((m.putDevEntry d').activeQueues + k') := by
  have hput := activeQueues_putDevEntry h hd d' hf
  rw [CountedBut] at hk
  rw [hk, u32_u32_add]
  unfold u32 at hact ⊢
  omega

theorem CountedBut.entryDestroy (h : m.Counts) {k : ℤ} (hk : m.CountedBut k) (f : ℕ)
    (mem : List Bool) : (m.devEntryDestroy f mem).CountedBut
      (k + ((m.getDevEntry f).map DevEntry.active).getD 0) := by
  rw [devEntryDestroy]
  rcases hd : m.getDevEntry f with _ | d
  · rwa [Option.map_none, Option.getD_none, Nat.cast_zero, add_zero]
  obtain ⟨l₁, l₂, hl, -, herase, -⟩ := exists_split h.ids hd
  have hsum : (m.activeQueues : ℤ) = d.active + ((l₁ ++ l₂).map DevEntry.active).sum := by
    rw [activeQueues, hl, sum_split, Nat.cast_add]
  dsimp only
  rw [herase]
  refine Eq.trans hk (congrArg u32 ?_)
  simp only [activeQueues, Option.map_some, Option.getD_some] at hsum ⊢
  omega

theorem CountedBut.increment (h : m.Counts) {k : ℤ} (hk : m.CountedBut k) (f : ℕ) (ty : DevQType) :
    (m.devIncrementActiveQueue f ty).2.CountedBut k := by
  rw [devIncrementActiveQueue]
  rcases hd : m.getDevEntry f with _ | d
  · exact hk
  dsimp only
  split
  · exact hk
  next cnt hcnt =>
    split
    · exact hk
    · rw [CountedBut]
      refine hk.put (x := 1) h hd ((setActiveQcnt_funcId d _ ty).trans (getDevEntry_eq_some hd).2) ?_
      have hact := active_setActiveQcnt (n := u32 (cnt + 1)) hcnt
      -- the counter may wrap around like the count of the device
      unfold u32 at hact ⊢
      omega

theorem CountedBut.decrement (h : m.Counts) {k : ℤ} (hk : m.CountedBut k) (f : ℕ) (ty : DevQType)
    (mem : List Bool) :
    (m.devDecrementActiveQueue f ty).2.CountedBut (k + m.drift (.decrement f ty, mem)) := by
  rw [devDecrementActiveQueue, drift]
  rcases hd : m.getDevEntry f with _ | d
  · rwa [add_zero]
  dsimp only
  rcases hcnt : d.activeQcnt ty with _ | cnt
  · rw [CountedBut] at hk
    dsimp only
    rw [CountedBut, sub_eq_add_neg, hk, u32_u32_add, add_assoc]
    rfl
  · rw [CountedBut]
    refine hk.put (x := -1) h hd ((setActiveQcnt_funcId d _ ty).trans (getDevEntry_eq_some hd).2)
      (congrArg u32 ?_)
    have hact := active_setActiveQcnt (n := if cnt ≠ 0 then cnt - 1 else cnt) hcnt
    rw [Option.getD_some]
    split_ifs at hact ⊢ <;> omega

theorem counted_step (h : m.Counts) {k : ℤ} (hk : m.CountedBut k) (c : Call × List Bool) :
    (m.step c).CountedBut (k + m.drift c) := by
  obtain ⟨c, mem⟩ := c
  have hkeep : m.CountedBut (k + 0) := by rwa [add_zero]
  cases c with
  | entryCreate f =>
    rw [step, devEntryCreate]
    split
    · split
      · exact hkeep
      · rw [CountedBut] at hkeep ⊢
        simpa [activeQueues, DevEntry.active, drift] using hkeep
    · exact hkeep
  | entryDestroy f => exact hk.entryDestroy h f mem
  | update f qmax qbase =>
    rw [step, devUpdate]
    rcases hd : m.getDevEntry f with _ | d
    · exact hkeep
    dsimp only
    split
    · exact hkeep
    · have hput := activeQueues_putDevEntry h hd
        { d with entry := (requestQResource d.entry qmax qbase m.freeList mem).2.1 }
        (getDevEntry_eq_some hd).2
      have hsame := Nat.add_right_cancel hput
      rw [drift, add_zero]
      exact Eq.trans hk (congrArg (fun n : ℕ ↦ u32 (n + k)) hsame.symm)
  | increment f ty =>
    rw [drift, add_zero]
    exact hk.increment h f ty
  | decrement f ty => exact hk.decrement h f ty mem

theorem counts_run (h : m.Counts) (calls : List (Call × List Bool)) : (m.run calls).Counts := by
  induction calls generalizing m with
  | nil => exact h
  | cons c calls ih => exact ih (h.step c)

theorem counted_run (h : m.Counts) {k : ℤ} (hk : m.CountedBut k) (calls : List (Call × List Bool)) :
    (m.run calls).CountedBut (k + m.drifts calls) := by
  induction calls generalizing m k with
  | nil => rwa [drifts, add_zero]
  | cons c calls ih =>
    rw [drifts, ← add_assoc]
    exact ih (h.step c) (counted_step h hk c)

/-- Whatever is called, the counters of a function are at most the queues that it has, and the count
of the device is what the functions count, but for the decrements that lowered no counter and the
functions that went away with active queues. -/
theorem active_counted (b : ℤ) (n : ℕ) (calls : List (Call × List Bool)) :
    (∀ d ∈ ((masterResourceCreate b n).run calls).devList, ∀ ty k, d.activeQcnt ty = some k →
      k ≤ d.entry.totalQ) ∧
    ((masterResourceCreate b n).run calls).activeQcnt =
      u32 (((masterResourceCreate b n).run calls).activeQueues +
        (masterResourceCreate b n).drifts calls) := by
  have h0 := create_counts b n
  have hrun := counted_run h0 (k := 0) rfl calls
  rw [zero_add] at hrun
  exact ⟨(counts_run h0 calls).counts, hrun⟩

theorem active_counted_two :
    ((masterResourceCreate 0 2048).run (twoFunctions ++ [(.increment 1 .c2h, []),
      (.decrement 1 .h2c, []), (.decrement 1 .other, [])])).activeQcnt =
    u32 (((masterResourceCreate 0 2048).run (twoFunctions ++ [(.increment 1 .c2h, []),
      (.decrement 1 .h2c, []), (.decrement 1 .other, [])])).activeQueues +
    (masterResourceCreate 0 2048).drifts (twoFunctions ++ [(.increment 1 .c2h, []),
      (.decrement 1 .h2c, []), (.decrement 1 .other, [])])) :=
  (active_counted 0 2048 _).2

end ResourceMaster

end QdmaTrafficGen.ResourceMgmt
