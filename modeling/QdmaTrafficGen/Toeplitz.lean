import Mathlib.Data.List.Induction
import Mathlib.Tactic.Common

namespace QdmaTrafficGen.Toeplitz

/-- `MATRIX_1` as the source lists it: the range is `[31:0]`, so row 31 comes first. -/
def MATRIX_1 : List (BitVec 96) := [
  0xAF76663F13494DCB5358756F#96,
  0x7FACBA2E5B2CFA73FA501144#96,
  0x9C3180F746383E9969809E0F#96,
  0x5CB1572E09810B411710D1E9#96,
  0x15714B9871096225DE0F2CFF#96,
  0x990038EBA58694E188BE6944#96,
  0x857CCFEE8CE71FCB7CC15EE9#96,
  0xB4CD19073FFF0BFF8FF4CC54#96,
  0x8DF7394453D5E5F428DC458C#96,
  0xED76F6E3A2C6D536D7817E98#96,
  0xAE4A22C7079BAD201B347B03#96,
  0xBBA7A024BB7598EE93CEC824#96,
  0x00605BF0E36E9157DC960738#96,
  0xDE75644F6F956F5F6DF097CD#96,
  0xE7DDCC929D031DED16334674#96,
  0xE0CEB343F9BA36E0601939D2#96,
  0xE61D1D3D112DBD3C58C7BA8E#96,
  0x95B00D08063C7BCEE1EEB3F3#96,
  0xE76ECC111B382DA0E1782784#96,
  0x3EBD346D6E2157416BF952D9#96,
  0x7A2BBD8F75AF35A7ED07A044#96,
  0x02B56D09AB6A8E5D41F45066#96,
  0x3AF588364F2E7A7216C47658#96,
  0x0FDA43AD20C1DEA729D433C7#96,
  0x100A42533DF5D24AE6212FF9#96,
  0x24E8FAFEFC991E3DC4BAD3D7#96,
  0xCC5C8444F737667A0C5A73D4#96,
  0xF574B13FABFD07143790D4A9#96,
  0xC4F6A8A1AFDFFBBF546B9AE5#96,
  0x88B61F879F19F17709C8CF2B#96,
  0x9A4990EF37EDC74175D3A70E#96,
  0x6AA09D830B32F3DF4BFC851E#96]

def MATRIX_2 : List (BitVec 96) := [
  0x68C0C87FF68F8CFFC4951CD0#96,
  0x3CA7223CFD4B747AC11818A3#96,
  0x64B37936439D31B32C55EA40#96,
  0x90563AE19B92DD32B24F9A59#96,
  0x15026C16C7597CD20189668D#96,
  0xC1CB61A756B578561E987A7A#96,
  0x6EBAD7D41266950904FC3E2A#96,
  0x239665B7A9F32B63DBD928B2#96,
  0x4F2D8A7F66BBC964A58FAA79#96,
  0xC345DDD37689604981626134#96,
  0xD81445DBEC7900554C256B67#96,
  0xFDDC20F3A735EDF20861520D#96,
  0x70609D1653D83D1CE3AFFF63#96,
  0x13AD52DB6782285D387C59C8#96,
  0xE57D4448F339A6AAC3B3C8B7#96,
  0x701D11043BB4555DB1F936E9#96,
  0xAB3334D4431A63AFE4AA2765#96,
  0xC58F6A728C1103E611D92E47#96,
  0x75FBDC8ACAE8D98032286877#96,
  0xF7A3C44E5E9FB98226684227#96,
  0x03212FFB45D3C655FCCD398C#96,
  0xC972C144DD575D184C3EAE99#96,
  0x41D7E68E74ED19BAD4EB95B9#96,
  0x22CC48199E6A64EC95245DC4#96,
  0x8C3DE39FADFD59CF480EF3CF#96,
  0x68212E1B42D0492AE6F87D38#96,
  0xEBCAD0123A71EB8408967D01#96,
  0x80CFCDD0057F32AEE018CFE3#96,
  0x13269A1B316BC43DB6C87F2C#96,
  0x9F6D3847C47E140D6496FE14#96,
  0x6B80D8E30E0BA5CF0E41B783#96,
  0x5313E48E5FF86D41EF41D526#96]

def xorBits : ℕ → ℕ → Bool
  | 0, _ => false
  | n + 1, v => v % 2 == 1 ^^ xorBits n (v / 2)

def xorReduce {w : ℕ} (v : BitVec w) : Bool := xorBits w v.toNat

/-- The hash of a tuple under a matrix. Bit `i` is the parity of the tuple masked with row `i`; the
rows come in from row 31 down, so each one shifts the bits of the earlier ones up. -/
def hashOut (m : List (BitVec 96)) (tupleInput : BitVec 96) : BitVec 32 :=
  m.foldl (fun h row ↦ h <<< 1 ||| (BitVec.ofBool (xorReduce (tupleInput &&& row))).setWidth 32) 0

def hashOut1 (tupleInput : BitVec 96) : BitVec 32 := hashOut MATRIX_1 tupleInput

def hashOut2 (tupleInput : BitVec 96) : BitVec 32 := hashOut MATRIX_2 tupleInput

theorem xorBits_xor (n a b : ℕ) : xorBits n (a ^^^ b) = (xorBits n a ^^ xorBits n b) := by
  induction n generalizing a b with
  | zero => rfl
  | succ n ih =>
    have hmod : ((a ^^^ b) % 2 == 1) = ((a % 2 == 1) ^^ (b % 2 == 1)) := by
      have h := Nat.testBit_xor a b 0
      rwa [Nat.testBit_zero, Nat.testBit_zero, Nat.testBit_zero] at h
    rw [xorBits, xorBits, xorBits, hmod, Nat.xor_div_two, ih]
    simp only [Bool.xor_assoc, Bool.xor_left_comm]

theorem xorReduce_xor {w : ℕ} (a b : BitVec w) : xorReduce (a ^^^ b) = (xorReduce a ^^ xorReduce b) := by
  rw [xorReduce, BitVec.toNat_xor, xorBits_xor]
  rfl

theorem row_xor (x y : BitVec 32) (c d : Bool) :
    (x ^^^ y) <<< 1 ||| (BitVec.ofBool (c ^^ d)).setWidth 32 =
      (x <<< 1 ||| (BitVec.ofBool c).setWidth 32) ^^^ (y <<< 1 ||| (BitVec.ofBool d).setWidth 32) := by
  ext k hk
  cases k with
  | zero => simp
  | succ k => simp

theorem hashOut_xor (m : List (BitVec 96)) (a b : BitVec 96) :
    hashOut m (a ^^^ b) = hashOut m a ^^^ hashOut m b := by
  induction m using List.reverseRecOn with
  | nil => simp [hashOut]
  | append_singleton m row ih =>
    have hrow : xorReduce ((a ^^^ b) &&& row) = (xorReduce (a &&& row) ^^ xorReduce (b &&& row)) := by
      rw [← xorReduce_xor]
      congr 1
      ext k hk
      simp [Bool.and_xor_distrib_right]
    simp only [hashOut, List.foldl_append, List.foldl_cons, List.foldl_nil] at ih ⊢
    rw [ih, hrow, row_xor]
end QdmaTrafficGen.Toeplitz
