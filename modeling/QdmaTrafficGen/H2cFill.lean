import QdmaTrafficGen.Clocked.Ring
import QdmaTrafficGen.StH2c

open Function Clocked

namespace QdmaTrafficGen.StH2c

open QdmaNet (Request SwSg)

def span (a n : ℕ) : List ℕ := (List.range n).map (a + ·)

@[simp] theorem length_span (a n : ℕ) : (span a n).length = n := by simp [span]

theorem span_append (a m n : ℕ) : span a m ++ span (a + m) n = span a (m + n) := by
  simp only [span, List.range_add, List.map_append, List.map_map]
  congr 1
  exact List.map_congr_left fun i _ ↦ Nat.add_assoc a m i

theorem drop_span {a m n : ℕ} (h : m ≤ n) : (span a n).drop m = span (a + m) (n - m) := by
  obtain ⟨k, rfl⟩ := Nat.exists_eq_add_of_le h
  rw [← span_append, List.drop_left' (length_span a m), Nat.add_sub_cancel_left]

def H2cDesc.bytes (d : H2cDesc) : List ℕ := span d.srcAddr d.len

def bytes (ds : List H2cDesc) : List ℕ := ds.flatMap H2cDesc.bytes

def sgBytes (sgl : ℕ → SwSg) : ℕ → ℕ → List ℕ
  | 0, _ => []
  | k + 1, i => span (sgl i).dmaAddr (sgl i).len ++ sgBytes sgl k (i + 1)

def reqBytes (req : Request) : List ℕ := sgBytes req.sgl req.sgcnt 0

@[simp] theorem bytes_nil : bytes [] = [] := rfl

@[simp] theorem bytes_append (ds ds' : List H2cDesc) : bytes (ds ++ ds') = bytes ds ++ bytes ds' :=
  List.flatMap_append

theorem bytes_singleton (d : H2cDesc) : bytes [d] = d.bytes := by simp [bytes]

structure Filled (rngsz : ℕ) (s t : Fill) (ds : List H2cDesc) : Prop where
  ring : (t.desc, t.pidx) =
    ds.foldl (fun r d ↦ (update r.1 r.2 d, Ring.succ rngsz r.2)) (s.desc, s.pidx)
  descCnt : t.descCnt = s.descCnt + ds.length
  dataCnt : t.dataCnt = s.dataCnt + (bytes ds).length

namespace Filled

variable {rngsz : ℕ} {s t u : Fill} {ds es : List H2cDesc}

theorem of_eq (hd : t.desc = s.desc) (hp : t.pidx = s.pidx) (hc : t.descCnt = s.descCnt)
    (hb : t.dataCnt = s.dataCnt) : Filled rngsz s t [] :=
  ⟨by rw [hd, hp, List.foldl_nil], by rw [hc]; rfl, by rw [hb]; rfl⟩

theorem put (h : 0 < rngsz) (s : Fill) (d : H2cDesc) : Filled rngsz s (s.put rngsz d) [d] where
  ring := by
    have hiff : s.pidx + 1 = rngsz ↔ s.pidx = rngsz - 1 := by omega
    simp only [Fill.put, hiff]
    rfl
  descCnt := rfl
  dataCnt := by simp [Fill.put, bytes_singleton, H2cDesc.bytes]

theorem trans (h : Filled rngsz s t ds) (h' : Filled rngsz t u es) :
    Filled rngsz s u (ds ++ es) where
  ring := by rw [List.foldl_append, ← h.ring, h'.ring]
  descCnt := by rw [h'.descCnt, h.descCnt, List.length_append, Nat.add_assoc]
  dataCnt := by rw [h'.dataCnt, h.dataCnt, bytes_append, List.length_append, Nat.add_assoc]

end Filled

variable {rngsz pktsz descMax : ℕ} {sgl : ℕ → SwSg}

theorem fillSg_spec (hz : 0 < rngsz) (hp : 0 < pktsz) {room : ℕ} (src tlen : ℕ) {s : Fill}
    (hr : s.descCnt + room = descMax) (hroom : 0 < room) :
    ∃ ds n t, fillSg rngsz pktsz descMax room src tlen s = (tlen - n, t) ∧ Filled rngsz s t ds ∧
      bytes ds = span src n ∧ (0 < tlen → 0 < n) ∧ n ≤ tlen ∧ 0 < ds.length ∧ ds.length ≤ room ∧
      (n = tlen ∨ ds.length = room) := by
  induction room generalizing src tlen s with
  | zero => exact absurd hroom (Nat.lt_irrefl 0)
  | succ room ih =>
    have hput := Filled.put hz s ⟨src, min tlen pktsz⟩
    have hlen (ht : 0 < tlen) : 0 < min tlen pktsz := Nat.lt_min.2 ⟨ht, hp⟩
    have hbytes : bytes [⟨src, min tlen pktsz⟩] = span src (min tlen pktsz) := bytes_singleton _
    rw [fillSg]
    split
    next h =>
      refine ⟨[_], min tlen pktsz, _, rfl, hput, hbytes, hlen, Nat.min_le_left _ _,
        Nat.zero_lt_one, ?_, ?_⟩
      · rw [List.length_singleton]
        omega
      · have hc := hput.descCnt
        rw [List.length_singleton] at hc ⊢
        omega
    next h =>
      obtain ⟨hne, hleft⟩ := not_or.1 h
      have hc := hput.descCnt
      rw [List.length_singleton] at hc
      obtain ⟨ds, n, t, hfill, hfilled, hb, hn, hle, hds₀, hds, hor⟩ :=
        ih (src + min tlen pktsz) (tlen - min tlen pktsz) (s := s.put rngsz ⟨src, min tlen pktsz⟩)
          (by omega) (by omega)
      refine ⟨_, min tlen pktsz + n, t, ?_, hput.trans hfilled, ?_, fun ht ↦ ?_, by omega, ?_, ?_, ?_⟩
      · rw [hfill, Nat.sub_sub]
      · rw [bytes_append, hbytes, hb, span_append]
      · exact Nat.add_pos_left (hlen ht) n
      all_goals
        rw [List.length_append, List.length_singleton]
        omega

theorem fillSgl_of_full {k i : ℕ} {s : Fill} (h : ¬s.descCnt < descMax) :
    fillSgl rngsz pktsz descMax sgl k i s = s := by
  cases k with
  | zero => rfl
  | succ k => rw [fillSgl, if_neg h]

/-- The descriptors for a list cover its bytes from where the transfer goes on, all of them unless
there is no more room. -/
theorem fillSgl_spec (descMax : ℕ) (hz : 0 < rngsz) (hp : 0 < pktsz) {k i : ℕ} {s : Fill}
    (hoff : 0 < k → s.sgOffset ≤ (sgl i).len) (hmax : s.descCnt ≤ descMax) :
    ∃ ds more, Filled rngsz s (fillSgl rngsz pktsz descMax sgl k i s) ds ∧
      bytes ds ++ more = (sgBytes sgl k i).drop s.sgOffset ∧ s.descCnt + ds.length ≤ descMax ∧
      (more = [] ∨ s.descCnt + ds.length = descMax) ∧
      (0 < k → s.descCnt < descMax →
        0 < ds.length ∧ (s.sgOffset < (sgl i).len → 0 < (bytes ds).length)) := by
  induction k generalizing i s with
  | zero =>
    refine ⟨[], [], .of_eq rfl rfl rfl rfl, ?_, ?_, .inl rfl, fun h ↦ absurd h (Nat.lt_irrefl 0)⟩
    · rw [sgBytes, List.drop_nil]
      rfl
    · exact hmax
  | succ k ih =>
    have hlt := hoff (Nat.succ_pos k)
    rw [fillSgl]
    by_cases hc : s.descCnt < descMax
    · rw [if_pos hc]
      obtain ⟨ds, n, t, hfill, hfilled, hb, hn, hle, hds₀, hds, hor⟩ :=
        fillSg_spec hz hp ((sgl i).dmaAddr + s.sgOffset) ((sgl i).len - s.sgOffset)
          (s := { s with sgOffset := 0 })
          (show s.descCnt + (descMax - s.descCnt) = descMax by omega) (by omega)
      rw [hfill]
      dsimp only
      have hdrop : (sgBytes sgl (k + 1) i).drop s.sgOffset =
          span ((sgl i).dmaAddr + s.sgOffset) ((sgl i).len - s.sgOffset) ++ sgBytes sgl k (i + 1) := by
        rw [sgBytes, List.drop_append_of_le_length (by rw [length_span]; omega),
          drop_span (by omega)]
      have hall : span ((sgl i).dmaAddr + s.sgOffset) ((sgl i).len - s.sgOffset) =
          bytes ds ++ span ((sgl i).dmaAddr + s.sgOffset + n) ((sgl i).len - s.sgOffset - n) := by
        rw [hb, span_append, Nat.add_sub_cancel' hle]
      have hfilled' : Filled rngsz s t ds := ⟨hfilled.ring, hfilled.descCnt, hfilled.dataCnt⟩
      have hcnt := hfilled'.descCnt
      have hpos' (ht : s.sgOffset < (sgl i).len) : 0 < (bytes ds).length := by
        rw [hb, length_span]
        exact hn (by omega)
      by_cases hn' : n = (sgl i).len - s.sgOffset
      · rw [if_pos (by omega)]
        have hnext := hfilled'.trans (.of_eq (t := { t with sgOffset := 0 }) rfl rfl rfl rfl)
        obtain ⟨es, more, hes, hmore, hle', hor', -⟩ :=
          ih (i := i + 1) (s := { t with sgOffset := 0 }) (fun _ ↦ Nat.zero_le _) (by dsimp only; omega)
        dsimp only at hmore hle' hor'
        refine ⟨_, more, hnext.trans hes, ?_, ?_, ?_, fun _ _ ↦ ⟨?_, fun ht ↦ ?_⟩⟩
        · rw [hdrop, hall, ← hn', Nat.sub_self, bytes_append, List.append_nil, List.append_assoc, hmore]
          simp [span]
        · simp only [List.append_nil, List.length_append]
          omega
        · simp only [List.append_nil, List.length_append]
          exact hor'.imp_right fun h ↦ by omega
        · simp only [List.append_nil, List.length_append]
          omega
        · have hpos := hpos' ht
          simp only [List.append_nil, bytes_append, List.length_append]
          omega
      · have hroom := hor.resolve_left hn'
        rw [if_neg (by omega), fillSgl_of_full (by omega)]
        have hrest := hdrop.trans (congrArg (· ++ sgBytes sgl k (i + 1)) hall)
        exact ⟨ds, _, hfilled', (hrest.trans (List.append_assoc _ _ _)).symm, by omega,
          .inr (by omega), fun _ _ ↦ ⟨hds₀, hpos'⟩⟩
    · rw [if_neg hc]
      exact ⟨[], _, .of_eq rfl rfl rfl rfl, rfl, by rw [List.length_nil]; omega,
        .inr (by rw [List.length_nil]; omega), fun _ h ↦ absurd h hc⟩

variable {req : Request} {offset : ℕ}

theorem length_sgBytes (k i : ℕ) :
    (sgBytes sgl k i).length = ((List.range k).map fun j ↦ (sgl (i + j)).len).sum := by
  induction k generalizing i with
  | zero => rfl
  | succ k ih =>
    rw [sgBytes, List.length_append, length_span, ih, List.range_succ_eq_map, List.map_cons,
      List.sum_cons, List.map_map, Nat.add_zero]
    congr 3
    funext j
    exact congrArg (fun n ↦ (sgl n).len) (by rw [Nat.succ_eq_add_one]; omega)

theorem findOffsetFrom_spec {k i len : ℕ} (hpos : ∀ j < req.sgcnt, 0 < (req.sgl j).len)
    (hk : i + k = req.sgcnt) (hle : len ≤ offset)
    (hlt : offset < len + (sgBytes req.sgl k i).length) :
    ∃ j off, findOffsetFrom req offset k i len = some (j, off) ∧ j < req.sgcnt ∧
      off < (req.sgl j).len ∧
      (sgBytes req.sgl (req.sgcnt - j) j).drop off = (sgBytes req.sgl k i).drop (offset - len) := by
  induction k generalizing i len with
  | zero =>
    rw [sgBytes, List.length_nil] at hlt
    omega
  | succ k ih =>
    rw [sgBytes, List.length_append, length_span] at hlt
    rw [findOffsetFrom]
    by_cases h₁ : len + (req.sgl i).len = offset
    · rw [if_pos h₁]
      have hk0 : 0 < k := by
        by_contra hk0
        rw [Nat.eq_zero_of_not_pos hk0, sgBytes, List.length_nil] at hlt
        omega
      rw [if_pos (by omega)]
      refine ⟨i + 1, 0, rfl, by omega, hpos _ (by omega), ?_⟩
      rw [List.drop_zero, sgBytes, show req.sgcnt - (i + 1) = k by omega,
        List.drop_left' (by rw [length_span]; omega)]
    rw [if_neg h₁]
    by_cases h₂ : len + (req.sgl i).len > offset
    · rw [if_pos h₂]
      refine ⟨i, _, rfl, by omega, by have := hpos i (by omega); omega, ?_⟩
      rw [show req.sgcnt - i = k + 1 by omega]
      congr 1
      omega
    · rw [if_neg h₂]
      obtain ⟨j, off, hfind, hj, hoff, hdrop⟩ := ih (i := i + 1) (by omega) (not_lt.1 h₂) (by omega)
      refine ⟨j, off, hfind, hj, hoff, ?_⟩
      have hdone : (span (req.sgl i).dmaAddr (req.sgl i).len).drop (offset - len) = [] :=
        List.drop_of_length_le (by rw [length_span]; omega)
      rw [hdrop, sgBytes, List.drop_append, hdone, List.nil_append, length_span, Nat.sub_sub]

end QdmaTrafficGen.StH2c
