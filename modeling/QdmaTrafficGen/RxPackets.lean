import QdmaTrafficGen.Clocked.Packets
import QdmaTrafficGen.HeaderPipeline

namespace QdmaTrafficGen.TopLevel

open Clocked

def IsTcp (tdata : BitVec 512) : Prop :=
  Datapath.field tdata 400 16 = ETH_TYPE_IPV4 ∧ Datapath.field tdata 320 8 = IP_PROTO_TCP

instance (tdata : BitVec 512) : Decidable (IsTcp tdata) := inferInstanceAs (Decidable (_ ∧ _))

def headerOf (b : Beat) : Option Header :=
  if IsTcp b.tdata then some (Datapath.decode b.tdata) else none

/-- One header for each IPv4/TCP packet among the beats, decoded from its first beat. -/
def headersOf (beats : List Beat) : List Header := (heads Beat.tlast true beats).filterMap headerOf

theorem filterMap_headerOf (o : Option Beat) :
    o.toList.filterMap headerOf = (o.bind headerOf).toList := by
  cases o with
  | none => rfl
  | some b =>
    rw [Option.bind_some, Option.toList_some, List.filterMap_cons]
    cases headerOf b <;> rfl

theorem headersOf_packets {ps : List (List Beat)} (h : ∀ p ∈ ps, IsPacket Beat.tlast p)
    {rest : List Beat} (hr : ∀ b ∈ rest, b.tlast = false) : headersOf (ps.flatten ++ rest) =
      ps.filterMap (fun p ↦ p.head?.bind headerOf) ++ (rest.head?.bind headerOf).toList := by
  rw [headersOf, heads_packets h hr, List.filterMap_append, List.filterMap_filterMap,
    filterMap_headerOf]

section

variable (u : ℕ → Input) (tlast : ℕ → Bool)

/-- The beat that is accepted in cycle `n`; `tlast` is `m_axis_h2c_tlast`. -/
def beat (n : ℕ) : Option Beat := if (u n).h2cTvalid then some ⟨(u n).h2cTdata, tlast n⟩ else none

def beats (n : ℕ) : List Beat := collect (beat u tlast) n

def received (n : ℕ) : List Header :=
  collect (fun k ↦ (circuit.run u k).headerQueue.pushed 64 (headerIn (u k))) n

def Opens (n : ℕ) : Prop :=
  startsAfter Beat.tlast true (beats u tlast n) = true ∧ IsTcp (u n).h2cTdata

/-- The queue has room for the first beats of IPv4/TCP packets and is full when another one comes. -/
def Fits (n : ℕ) : Prop :=
  (u n).h2cTvalid = true → (Opens u tlast n ↔ (circuit.run u n).headerQueue.full 64 = false)

variable {u tlast} {n : ℕ}

theorem headersOf_concat (l : List Beat) (b : Beat) : headersOf (l ++ [b]) =
    headersOf l ++ if startsAfter Beat.tlast true l then (headerOf b).toList else [] := by
  rw [headersOf, heads_append, List.filterMap_append, headersOf]
  congr 1
  rw [heads, heads, List.append_nil]
  split
  case isTrue => exact filterMap_headerOf (some b)
  case isFalse => rfl

theorem received_next_iff (h : received u n = headersOf (beats u tlast n)) :
    received u (n + 1) = headersOf (beats u tlast (n + 1)) ↔ Fits u tlast n := by
  rw [received, collect_succ, ← received, beats, collect_succ, ← beats, h, beat, Fits]
  cases hv : (u n).h2cTvalid with
  | false => simp [Fifo.pushed, headerIn, hv]
  | true =>
    rw [if_pos rfl, Option.toList_some, headersOf_concat, List.append_cancel_left_eq, Fifo.pushed,
      headerIn, if_pos hv, Opens, headerOf]
    by_cases ht : IsTcp (u n).h2cTdata <;> cases (circuit.run u n).headerQueue.full 64 <;>
      cases startsAfter Beat.tlast true (beats u tlast n) <;> simp [ht]

/-- The header queue takes in one header for each IPv4/TCP packet for exactly as long as it has room
for them and drops all other beats. -/
theorem received_iff (u : ℕ → Input) (tlast : ℕ → Bool) (n : ℕ) :
    (∀ k ≤ n, received u k = headersOf (beats u tlast k)) ↔ ∀ k < n, Fits u tlast k :=
  stepwise_iff (I := fun k ↦ received u k = headersOf (beats u tlast k)) rfl
    (fun _ ↦ received_next_iff) n

end

def long (n : ℕ) : Input := { h2cTdata := Datapath.segment 1000 0 2, h2cTvalid := n < 2 }

theorem long_not_received : IsPacket Beat.tlast (beats long (· == 1) 2) ∧
    ¬∀ n, received long n = headersOf (beats long (· == 1) n) := by
  have hpacket : IsPacket Beat.tlast (beats long (· == 1) 2) := ⟨[_], _, rfl, by simp, rfl⟩
  have hone : (headersOf (beats long (· == 1) 2)).length ≤ 1 := by
    have h : headersOf ([beats long (· == 1) 2].flatten ++ []) = _ :=
      headersOf_packets (by simpa using hpacket) (by simp)
    rw [List.flatten_singleton, List.append_nil, List.head?_nil, Option.bind_none, Option.toList_none,
      List.append_nil] at h
    rw [h]
    exact List.length_filterMap_le ..
  have htwo : (received long 2).length = 2 := by decide +kernel
  refine ⟨hpacket, fun h ↦ ?_⟩
  rw [← h 2, htwo] at hone
  exact absurd hone (by decide)

end QdmaTrafficGen.TopLevel
