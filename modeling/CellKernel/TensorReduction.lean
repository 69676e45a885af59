import CellKernel.TensorBuffer

/-
The tensor of ones that _start fills and the sum that ap_entry takes of it,
in the f32 arithmetic of the loop. A natural number is exact in an f32 up to
2^24, and adding ones stops there.
-/
namespace CellTensor
open CellCore WholeFloats
open Float.Model (Format)

def asF32 (n : Nat) : Float32 := .ofModel (.ofNat n)

/-- values.len() and the loop sum += *value, from the given sum on. -/
def sumFrom (sum : Float32) : List Float32 → Float32
  | [] => sum
  | value :: rest => sumFrom (sum + value) rest

def f32Values (words : List Nat) : List Float32 :=
  words.map fun word => Float32.ofBits (.ofNat word)

def reduce (values : List Float32) : Float32 × Nat := (sumFrom 0.0 values, values.length)

/-- 1.0_f32.to_ne_bytes() -/
def oneBytes : List UInt8 := toNeBytes 4 (1.0 : Float32).toBits.toNat

/-- sum.to_bits() as usize, and what f32::from_bits makes of it as u32. -/
def sumBits (sum : Float32) : UInt64 := sum.toBits.toUInt64

def fromSumBits (bits : UInt64) : Float32 := .ofBits bits.toUInt32

def binary32 : Format := Format.binary32

theorem wide32 : binary32.mantissaBits ≤ binary32.exponentBias := by decide

theorem exact_limit : 2 ^ binary32.mantissaBits = 2 ^ 24 := rfl

theorem literals : (0.0 : Float32) = asF32 0 ∧ (1.0 : Float32) = asF32 1 := ⟨rfl, rfl⟩

theorem unpack_as_f32 {n : Nat} (fits : n ≤ 2 ^ 24) :
    (asF32 n).toModel.unpack = Float.Model.UnpackedFloat.ofNat binary32 n :=
  of_nat_packs wide32 fits

theorem add_as_f32 {a b : Nat} (left : a ≤ 2 ^ 24) (right : b ≤ 2 ^ 24) :
    asF32 a + asF32 b = asF32 (a + b) := by
  have sum := add_of_nat wide32 left right
  rw [← unpack_as_f32 left, ← unpack_as_f32 right] at sum
  exact congrArg (fun x => Float32.ofModel (.pack x)) sum

theorem as_f32_tie : asF32 (2 ^ 24 + 1) = asF32 (2 ^ 24) :=
  congrArg (fun x => Float32.ofModel (.pack x)) (of_nat_tie wide32)

theorem equal_as_f32_iff {a b : Nat} (left : a ≤ 2 ^ 24) (right : b ≤ 2 ^ 24) :
    (asF32 a).beq (asF32 b) = true ↔ a = b := by
  have same := beq_of_nat_iff wide32 left right
  rw [← unpack_as_f32 left, ← unpack_as_f32 right] at same
  exact same

theorem apart_as_f32 {n : Nat} (past : 2 ^ 24 + 2 ≤ n) (word : n < 2 ^ 64) :
    ¬ (asF32 (2 ^ 24)).beq (asF32 n) = true := by
  have log : n.log2 < binary32.exponentBias := by
    have short : n.log2 < 64 := (Nat.log2_lt (by omega)).mpr word
    exact short.trans (by decide)
  have apart := beq_past wide32 past log
  have unpacked : (asF32 n).toModel.unpack = Float.Model.UnpackedFloat.ofNat binary32 n :=
    of_nat_past_packs wide32 past log
  rw [exact_limit, ← unpack_as_f32 (Nat.le_refl _), ← unpacked] at apart
  exact apart

theorem sum_ones {start : Nat} (inside : start ≤ 2 ^ 24) (count : Nat) :
    sumFrom (asF32 start) (List.replicate count (asF32 1)) =
      asF32 (min (start + count) (2 ^ 24)) := by
  induction count generalizing start with
  | zero =>
    rw [Nat.add_zero, Nat.min_eq_left inside]
    rfl
  | succ count ih =>
    rw [List.replicate_succ, sumFrom, add_as_f32 inside (by decide)]
    rcases Nat.lt_or_eq_of_le inside with below | top
    · have next : start + 1 + count = start + (count + 1) := by omega
      rw [ih below, next]
    · rw [top, as_f32_tie, ih (Nat.le_refl _)]
      congr 1
      omega

theorem bits_come_back {n : Nat} (fits : n ≤ 2 ^ 24) :
    fromSumBits (sumBits (asF32 n)) = asF32 n := by
  have bits : (sumBits (asF32 n)).toUInt32 = (asF32 n).toBits := UInt32.toUInt32_toUInt64 _
  unfold fromSumBits
  rw [bits]
  exact congrArg (fun x => Float32.ofModel (.pack x)) (unpack_as_f32 fits)

theorem one_read_back : Float32.ofBits (.ofNat (fromNeBytes oneBytes)) = asF32 1 := by
  decide +kernel

theorem filled_elements (memory : Bytes) (virtPtr : UInt64) (count : Nat) :
    loadElements (fillChunksExact memory (virtPtr, count * 4) oneBytes) virtPtr.toNat 4 count =
      List.replicate count (fromNeBytes oneBytes) := by
  have width : oneBytes.length = 4 := ne_bytes_length 4 _
  have one : toNeBytes 4 (fromNeBytes oneBytes) = oneBytes := by decide +kernel
  have word : fromNeBytes oneBytes < 256 ^ 4 := by decide +kernel
  have laid : (List.replicate count oneBytes).flatten =
      layOut 4 (List.replicate count (fromNeBytes oneBytes)) := by
    rw [layOut, List.map_replicate, one]
  have same : ∀ other ∈ List.replicate count (fromNeBytes oneBytes), other < 256 ^ 4 := by
    intro other member
    rw [List.eq_of_mem_replicate member]
    exact word
  have read : loadElements (copyFromSlice memory virtPtr.toNat
      (layOut 4 (List.replicate count (fromNeBytes oneBytes)))) virtPtr.toNat 4 _ = _ :=
    elements_laid_out same
  rw [List.length_replicate] at read
  unfold fillChunksExact
  rw [chunks_copy, width, Nat.mul_div_cancel _ (by decide), laid]
  exact read

theorem filled_outside (memory : Bytes) {virtPtr : UInt64} {count place : Nat}
    (outside : place < virtPtr.toNat ∨ virtPtr.toNat + count * 4 ≤ place) :
    fillChunksExact memory (virtPtr, count * 4) oneBytes place = memory place := by
  have width : oneBytes.length = 4 := ne_bytes_length 4 _
  have length : (List.replicate (count * 4 / oneBytes.length) oneBytes).flatten.length =
      count * 4 := by
    rw [List.length_flatten, List.map_replicate, List.sum_replicate, width,
      Nat.mul_div_cancel _ (by decide)]
    rfl
  unfold fillChunksExact
  rw [chunks_copy]
  apply copy_outside
  rw [length]
  exact outside

theorem reduce_ones (count : Nat) :
    reduce (f32Values (List.replicate count (fromNeBytes oneBytes))) =
      (asF32 (min count (2 ^ 24)), count) := by
  rw [f32Values, List.map_replicate, one_read_back, reduce, literals.1, sum_ones (by decide),
    Nat.zero_add, List.length_replicate]

/-- The sum of a tensor of ones is its element count, clipped where f32 stops
    counting; the check of ap_entry sees the difference from two elements past
    that, and the stored bits are the sum. -/
theorem filled_tensor_reduces {profile : Profile} {context : TraceContext}
    {physAddr virtPtr count : UInt64} {chunk : TensorChunk .mutable}
    (built : TensorChunk.new profile context physAddr virtPtr (.new1d count) .F32 = .ok chunk)
    (provided : Allocation virtPtr (count.toNat * 4)) (aligned : virtPtr.toNat % 4 = 0)
    (memory : Bytes) :
    ∃ slice words sum, chunk.asMutSlice = .ok slice ∧
      chunk.freeze.elements (fillChunksExact memory slice oneBytes) 4 4 = .ok words ∧
      reduce (f32Values words) = (sum, count.toNat) ∧
      sum = asF32 (min count.toNat (2 ^ 24)) ∧
      fromSumBits (sumBits sum) = sum ∧
      (sum.beq count.toFloat32 = true ↔ count.toNat ≤ 2 ^ 24 + 1) ∧
      ∀ place, place < virtPtr.toNat ∨ virtPtr.toNat + count.toNat * 4 ≤ place →
        fillChunksExact memory slice oneBytes place = memory place := by
  have fits : count.toNat * 4 < 2 ^ 64 := lt_trans provided.valid.2 (by decide)
  rw [new_1d_chunk profile context physAddr virtPtr count .F32 fits] at built
  cases built
  have sliced : TensorChunk.asSlice (TensorChunk.freeze ⟨context, .new1d count, .F32, physAddr,
      virtPtr, count.toNat * DType.F32.sizeInBytes⟩) 4 4 = .ok count.toNat :=
    (frozen_slice_iff context physAddr virtPtr count .F32 4 _).mpr ⟨aligned, provided.valid, rfl⟩
  refine ⟨(virtPtr, count.toNat * 4), List.replicate count.toNat (fromNeBytes oneBytes),
    asF32 (min count.toNat (2 ^ 24)), (as_mut_slice_ok_iff _ _).mpr ⟨provided.valid, rfl⟩, ?_,
    reduce_ones count.toNat, rfl, bits_come_back (by omega), ?_, ?_⟩
  · unfold TensorChunk.elements
    rw [sliced]
    exact congrArg Except.ok (filled_elements memory virtPtr count.toNat)
  · have cast : count.toFloat32 = asF32 count.toNat := rfl
    have word := count.toNat_lt
    rw [cast]
    rcases Nat.le_total count.toNat (2 ^ 24) with small | large
    · rw [Nat.min_eq_left small, equal_as_f32_iff small small]
      exact ⟨fun _ => by omega, fun _ => rfl⟩
    · rw [Nat.min_eq_right large]
      by_cases past : 2 ^ 24 + 2 ≤ count.toNat
      · exact ⟨fun equal => absurd equal (apart_as_f32 past word), fun _ => by omega⟩
      · have near : asF32 count.toNat = asF32 (2 ^ 24) := by
          have cases : count.toNat = 2 ^ 24 ∨ count.toNat = 2 ^ 24 + 1 := by omega
          rcases cases with same | tie
          · rw [same]
          · rw [tie, as_f32_tie]
        rw [near, equal_as_f32_iff (Nat.le_refl _) (Nat.le_refl _)]
        exact ⟨fun _ => by omega, fun _ => rfl⟩
  · intro place outside
    exact filled_outside memory outside

theorem filled_tensor_reduces_page : ∃ chunk slice words sum,
    TensorChunk.new .dev ⟨100, 100, 0⟩ 0 4096 (.new1d 1024) .F32 = .ok chunk ∧
      chunk.asMutSlice = .ok slice ∧
      chunk.freeze.elements (fillChunksExact (fun _ => 0) slice oneBytes) 4 4 = .ok words ∧
      reduce (f32Values words) = (sum, 1024) ∧ sum.beq (1024 : UInt64).toFloat32 = true := by
  have built := new_1d_chunk .dev ⟨100, 100, 0⟩ 0 4096 1024 .F32 (by decide)
  have provided : Allocation 4096 ((1024 : UInt64).toNat * 4) := ⟨by decide, by decide⟩
  obtain ⟨slice, words, sum, mutable, read, reduced, _, _, checked, _⟩ :=
    filled_tensor_reduces built provided (by decide) fun _ => 0
  exact ⟨_, slice, words, sum, built, mutable, read, reduced, checked.mpr (by decide)⟩

end CellTensor
