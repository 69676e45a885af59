import Mathlib.Algebra.Group.Nat.Defs
import CellKernel.Payload

/-
Tensor descriptors of crates/cell-core. A chunk owns the buffer at its physical
and virtual address; the buffer itself is not modelled. The product in new is a
plain multiplication, which panics or wraps by build profile.
-/
namespace CellTensor
open CellCore

inductive DType where
  | F32
  | F16
  | BF16
  | I8
  | U8
  deriving DecidableEq, Repr

def DType.sizeInBytes : DType → Nat
  | .F32 => 4
  | .F16 => 2
  | .BF16 => 2
  | .I8 => 1
  | .U8 => 1

structure TensorShape where
  dims : Vector UInt64 4
  rank : UInt8
  deriving DecidableEq

def TensorShape.new1d (len : UInt64) : TensorShape := ⟨#v[len, 0, 0, 0], 1⟩

/-- invalidRawParts is a call of slice::from_raw_parts against its precondition:
    the dev profile checks it and panics, the release profile is undefined. -/
inductive TensorPanic where
  | indexOutOfBounds
  | arithmeticOverflow
  | assertionFailed
  | invalidRawParts
  deriving DecidableEq, Repr

/-- usize::saturating_mul -/
def saturatingMul (a b : Nat) : Nat := min (a * b) (2 ^ 64 - 1)

/-- while index < self.rank, with remaining = rank - index -/
def TensorShape.totalFrom (self : TensorShape) (index total : Nat) :
    Nat → Except TensorPanic Nat
  | 0 => .ok total
  | remaining + 1 =>
      match self.dims[index]? with
      | none => .error .indexOutOfBounds
      | some dim => self.totalFrom (index + 1) (saturatingMul total dim.toNat) remaining

def TensorShape.totalElements (self : TensorShape) : Except TensorPanic Nat :=
  self.totalFrom 0 1 self.rank.toNat

/-- What a plain usize multiplication does on overflow: the dev profile panics,
    the release profile wraps. -/
inductive Profile where
  | dev
  | release
  deriving DecidableEq

def mulUsize (profile : Profile) (a b : Nat) : Except TensorPanic Nat :=
  if a * b < 2 ^ 64 then .ok (a * b)
  else match profile with
  | .dev => .error .arithmeticOverflow
  | .release => .ok (a * b % 2 ^ 64)

inductive ChunkState where
  | mutable
  | ready

structure TensorChunk (state : ChunkState) where
  context : TraceContext
  shape : TensorShape
  dtype : DType
  physAddr : UInt64
  virtPtr : UInt64
  byteLen : Nat
  deriving DecidableEq

def TensorChunk.new (profile : Profile) (context : TraceContext) (physAddr virtPtr : UInt64)
    (shape : TensorShape) (dtype : DType) : Except TensorPanic (TensorChunk .mutable) := do
  let total ← shape.totalElements
  let byteLen ← mulUsize profile total dtype.sizeInBytes
  return ⟨context, shape, dtype, physAddr, virtPtr, byteLen⟩

/-- What slice::from_raw_parts and from_raw_parts_mut ask of a pointer and a
    length in bytes: not null, and at most isize::MAX. -/
def ValidRawParts (virtPtr : UInt64) (byteLen : Nat) : Prop :=
  virtPtr ≠ 0 ∧ byteLen < 2 ^ 63

instance (virtPtr : UInt64) (byteLen : Nat) : Decidable (ValidRawParts virtPtr byteLen) :=
  inferInstanceAs (Decidable (_ ∧ _))

/-- What the caller of new provides: so many bytes at the pointer, which is not
    null, at most isize::MAX of them and inside the address space. -/
structure Allocation (virtPtr : UInt64) (byteLen : Nat) : Prop where
  valid : ValidRawParts virtPtr byteLen
  inside : virtPtr.toNat + byteLen < 2 ^ 64

def TensorChunk.asMutSlice (self : TensorChunk .mutable) : Except TensorPanic (UInt64 × Nat) :=
  if ValidRawParts self.virtPtr self.byteLen then .ok (self.virtPtr, self.byteLen)
  else .error .invalidRawParts

def TensorChunk.freeze (self : TensorChunk .mutable) : TensorChunk .ready :=
  ⟨self.context, self.shape, self.dtype, self.physAddr, self.virtPtr, self.byteLen⟩

/-- as_slice for an element type of the given size and alignment: the length of
    the slice. -/
def TensorChunk.asSlice (self : TensorChunk .ready) (size align : Nat) :
    Except TensorPanic Nat :=
  if size ≠ self.dtype.sizeInBytes then .error .assertionFailed
  else if self.byteLen % size ≠ 0 then .error .assertionFailed
  else if self.virtPtr.toNat % align ≠ 0 then .error .assertionFailed
  else if ValidRawParts self.virtPtr self.byteLen then .ok (self.byteLen / size)
  else .error .invalidRawParts

def TensorChunk.deconstruct (self : TensorChunk .ready) : TraceContext × UInt64 :=
  (self.context, self.physAddr)

theorem new_1d_elements (len : UInt64) : (TensorShape.new1d len).totalElements = .ok len.toNat := by
  have fits := len.toNat_lt
  have once : saturatingMul 1 len.toNat = len.toNat := by
    unfold saturatingMul
    omega
  simp [TensorShape.totalElements, TensorShape.new1d, TensorShape.totalFrom, once]

theorem new_1d_chunk (profile : Profile) (context : TraceContext) (physAddr virtPtr len : UInt64)
    (dtype : DType) (fits : len.toNat * dtype.sizeInBytes < 2 ^ 64) :
    TensorChunk.new profile context physAddr virtPtr (.new1d len) dtype =
      .ok ⟨context, .new1d len, dtype, physAddr, virtPtr, len.toNat * dtype.sizeInBytes⟩ := by
  unfold TensorChunk.new
  rw [new_1d_elements]
  have product : mulUsize profile len.toNat dtype.sizeInBytes =
      .ok (len.toNat * dtype.sizeInBytes) := if_pos fits
  simp [bind, Except.bind, product, pure, Except.pure]

theorem freeze_deconstruct (chunk : TensorChunk .mutable) :
    chunk.freeze.deconstruct = (chunk.context, chunk.physAddr) := rfl

theorem as_mut_slice_ok_iff (self : TensorChunk .mutable) (slice : UInt64 × Nat) :
    self.asMutSlice = .ok slice ↔
      ValidRawParts self.virtPtr self.byteLen ∧ slice = (self.virtPtr, self.byteLen) := by
  unfold TensorChunk.asMutSlice
  by_cases valid : ValidRawParts self.virtPtr self.byteLen
  · simp [valid, eq_comm]
  · simp [valid]

theorem as_slice_ok_iff (self : TensorChunk .ready) (size align count : Nat) :
    self.asSlice size align = .ok count ↔ size = self.dtype.sizeInBytes ∧
      self.byteLen % size = 0 ∧ self.virtPtr.toNat % align = 0 ∧
      ValidRawParts self.virtPtr self.byteLen ∧ count = self.byteLen / size := by
  unfold TensorChunk.asSlice
  by_cases sized : size = self.dtype.sizeInBytes
  · by_cases divides : self.byteLen % size = 0
    · by_cases aligned : self.virtPtr.toNat % align = 0
      · by_cases valid : ValidRawParts self.virtPtr self.byteLen
        · simp [sized, sized ▸ divides, aligned, valid, eq_comm]
        · simp [sized, sized ▸ divides, aligned, valid]
      · simp [sized, sized ▸ divides, aligned]
    · simp [sized, sized ▸ divides]
  · simp [sized]

/-- A frozen chunk reads as its elements exactly when its pointer is aligned and
    its bytes can be a slice. -/
theorem frozen_slice_iff (context : TraceContext) (physAddr virtPtr len : UInt64) (dtype : DType)
    (align count : Nat) :
    (TensorChunk.freeze ⟨context, .new1d len, dtype, physAddr, virtPtr,
      len.toNat * dtype.sizeInBytes⟩).asSlice dtype.sizeInBytes align = .ok count ↔
        virtPtr.toNat % align = 0 ∧ ValidRawParts virtPtr (len.toNat * dtype.sizeInBytes) ∧
          count = len.toNat := by
  have positive : 0 < dtype.sizeInBytes := by cases dtype <;> decide
  have elements : len.toNat * dtype.sizeInBytes / dtype.sizeInBytes = len.toNat :=
    Nat.mul_div_cancel _ positive
  rw [as_slice_ok_iff]
  simp [TensorChunk.freeze, elements]

end CellTensor
