import CellKernel.ClippedProduct
import CellKernel.Tensor

/-
The sizes of crates/cell-core/src/tensor.rs against their values over the
natural numbers: the element count is the exact product clipped once, and the
byte length is exact where the plain multiplication in new can tell.
-/
namespace CellTensor
open CellCore ClippedProduct

def TensorShape.new2d (rows cols : UInt64) : TensorShape := ⟨#v[rows, cols, 0, 0], 2⟩

def TensorShape.new3d (batch sequence depth : UInt64) : TensorShape :=
  ⟨#v[batch, sequence, depth, 0], 3⟩

def TensorShape.new4d (batch channels height width : UInt64) : TensorShape :=
  ⟨#v[batch, channels, height, width], 4⟩

def TensorShape.countedDims (shape : TensorShape) : List Nat :=
  (shape.dims.toList.take shape.rank.toNat).map UInt64.toNat

def TensorShape.exactElements (shape : TensorShape) : Nat := shape.countedDims.prod

def TensorShape.exactBytes (shape : TensorShape) (dtype : DType) : Nat :=
  shape.exactElements * dtype.sizeInBytes

theorem constructed_elements (a b c d : UInt64) :
    (TensorShape.new1d a).exactElements = a.toNat ∧
      (TensorShape.new2d a b).exactElements = a.toNat * b.toNat ∧
      (TensorShape.new3d a b c).exactElements = a.toNat * b.toNat * c.toNat ∧
      (TensorShape.new4d a b c d).exactElements =
        a.toNat * b.toNat * c.toNat * d.toNat := by
  simp [TensorShape.exactElements, TensorShape.countedDims, TensorShape.new1d,
    TensorShape.new2d, TensorShape.new3d, TensorShape.new4d, Nat.mul_assoc]

theorem total_from_folds (shape : TensorShape) (remaining : Nat) :
    ∀ index total : Nat, index + remaining ≤ 4 →
      shape.totalFrom index total remaining = .ok (clippedProduct (2 ^ 64 - 1) total
        (((shape.dims.toList.drop index).take remaining).map UInt64.toNat)) := by
  induction remaining with
  | zero =>
    intro index total inside
    rw [List.take_zero]
    rfl
  | succ remaining ih =>
    intro index total inside
    have here : index < 4 := by omega
    have listed : index < shape.dims.toList.length := by
      rw [Vector.length_toList]
      exact here
    have first : shape.dims.toList.drop index =
        shape.dims.toList[index] :: shape.dims.toList.drop (index + 1) :=
      List.drop_eq_getElem_cons listed
    have read : shape.dims[index]? = some shape.dims.toList[index] := by
      rw [Vector.getElem?_eq_getElem here, Vector.getElem_toList]
    rw [first, List.take_succ_cons, List.map_cons, TensorShape.totalFrom, read]
    exact ih (index + 1) _ (by omega)

/-- Clipping after each dimension is clipping the product once. -/
theorem total_elements_exact {shape : TensorShape} (ranked : shape.rank.toNat ≤ 4) :
    shape.totalElements = .ok (clip (2 ^ 64 - 1) shape.exactElements) := by
  have folds := total_from_folds shape shape.rank.toNat 0 1 (by omega)
  have start : 1 ≤ 2 ^ 64 - 1 := by decide
  rw [clipped_product_exact start, Nat.one_mul, List.drop_zero] at folds
  exact folds

theorem counted_dims_agree {shape other : TensorShape} (sameRank : other.rank = shape.rank)
    (agree : ∀ index, index < shape.rank.toNat → other.dims[index]? = shape.dims[index]?) :
    other.countedDims = shape.countedDims := by
  have counted : other.dims.toList.take shape.rank.toNat =
      shape.dims.toList.take shape.rank.toNat := by
    apply List.ext_getElem?
    intro index
    rw [List.getElem?_take, List.getElem?_take]
    by_cases before : index < shape.rank.toNat
    · rw [if_pos before, if_pos before, Vector.getElem?_toList, Vector.getElem?_toList,
        agree index before]
    · rw [if_neg before, if_neg before]
  unfold TensorShape.countedDims
  rw [sameRank, counted]

theorem total_elements_permuted {shape other : TensorShape} (ranked : shape.rank.toNat ≤ 4)
    (sameRank : other.rank = shape.rank) (permuted : other.countedDims.Perm shape.countedDims) :
    other.totalElements = shape.totalElements := by
  have otherRanked : other.rank.toNat ≤ 4 := by
    rw [sameRank]
    exact ranked
  rw [total_elements_exact otherRanked, total_elements_exact ranked, TensorShape.exactElements,
    permuted.prod_eq]
  rfl

/-- In any order of the dimensions, and whatever stands past the rank. The loop
    reads no dimension out of range, which would be an error. -/
theorem total_elements_clipped_once (shape : TensorShape) (ranked : shape.rank.toNat ≤ 4) :
    shape.totalElements = .ok (min shape.exactElements (2 ^ 64 - 1)) ∧
      (∀ other : TensorShape, other.rank = shape.rank →
        other.countedDims.Perm shape.countedDims →
          other.totalElements = shape.totalElements) ∧
      (0 ∈ shape.countedDims → shape.totalElements = .ok 0) ∧
      (∀ other : TensorShape, other.rank = shape.rank →
        (∀ index, index < shape.rank.toNat → other.dims[index]? = shape.dims[index]?) →
          other.totalElements = shape.totalElements) := by
  refine ⟨total_elements_exact ranked, ?_, ?_, ?_⟩
  · intro other sameRank permuted
    exact total_elements_permuted ranked sameRank permuted
  · intro zero
    have empty : shape.exactElements = 0 :=
      List.prod_eq_zero_iff_exists_zero_nat.mpr ⟨0, zero, rfl⟩
    rw [total_elements_exact ranked, empty, clip_zero]
  · intro other sameRank agree
    apply total_elements_permuted ranked sameRank
    rw [counted_dims_agree sameRank agree]

theorem total_elements_clipped_once_saturated :
    (TensorShape.new3d 9223372036854775808 2 0).rank.toNat ≤ 4 ∧
      (TensorShape.new3d 9223372036854775808 2 0).totalElements = .ok 0 :=
  ⟨by decide,
    (total_elements_clipped_once (.new3d 9223372036854775808 2 0) (by decide)).2.2.1 (by decide)⟩

theorem size_positive (dtype : DType) : 0 < dtype.sizeInBytes := by cases dtype <;> decide

theorem mul_usize_of_fits (profile : Profile) {a b : Nat} (fits : a * b < 2 ^ 64) :
    mulUsize profile a b = .ok (a * b) := if_pos fits

theorem mul_usize_error {profile : Profile} {a b : Nat} {panic : TensorPanic}
    (refused : mulUsize profile a b = .error panic) : 2 ^ 64 ≤ a * b ∧ profile = .dev := by
  unfold mulUsize at refused
  split at refused
  · cases refused
  · rename_i past
    cases profile with
    | dev => exact ⟨Nat.le_of_not_lt past, rfl⟩
    | release => cases refused

theorem mul_usize_dev_past {a b : Nat} (past : 2 ^ 64 ≤ a * b) :
    mulUsize .dev a b = .error .arithmeticOverflow := if_neg (Nat.not_lt_of_le past)

theorem new_multiplies (profile : Profile) (context : TraceContext)
    (physAddr virtPtr : UInt64) {shape : TensorShape} (dtype : DType)
    (ranked : shape.rank.toNat ≤ 4) :
    TensorChunk.new profile context physAddr virtPtr shape dtype =
      (mulUsize profile (clip (2 ^ 64 - 1) shape.exactElements) dtype.sizeInBytes).map
        fun byteLen => ⟨context, shape, dtype, physAddr, virtPtr, byteLen⟩ := by
  unfold TensorChunk.new
  rw [total_elements_exact ranked]
  rfl

theorem clipped_bytes_exact {shape : TensorShape} {dtype : DType}
    (fits : shape.exactBytes dtype < 2 ^ 64) :
    clip (2 ^ 64 - 1) shape.exactElements * dtype.sizeInBytes = shape.exactBytes dtype := by
  have few : shape.exactElements ≤ shape.exactBytes dtype :=
    Nat.le_mul_of_pos_right _ (size_positive dtype)
  rw [clip_of_le (by omega), TensorShape.exactBytes]

/-- From two bytes an element on, the clipped count overflows where the exact one does. -/
theorem clipped_bytes_past {shape : TensorShape} {dtype : DType}
    (past : 2 ^ 64 ≤ shape.exactBytes dtype) (wide : dtype.sizeInBytes ≠ 1) :
    2 ^ 64 ≤ clip (2 ^ 64 - 1) shape.exactElements * dtype.sizeInBytes := by
  have positive := size_positive dtype
  rcases Nat.le_total shape.exactElements (2 ^ 64 - 1) with few | many
  · rw [clip_of_le few]
    exact past
  · rw [clip_of_ge many]
    calc 2 ^ 64 ≤ (2 ^ 64 - 1) * 2 := by decide
      _ ≤ (2 ^ 64 - 1) * dtype.sizeInBytes := Nat.mul_le_mul_left _ (by omega)

/-- The length of every chunk that new returns for the shape is the shape's
    byte size, and there is none if that exceeds usize. Both slices have this
    length where the caller of new provides them with an allocation. -/
structure DescribesShape (profile : Profile) (shape : TensorShape) (dtype : DType) : Prop where
  byteLen : ∀ context physAddr virtPtr chunk,
    TensorChunk.new profile context physAddr virtPtr shape dtype = .ok chunk →
      chunk.byteLen = shape.exactBytes dtype
  mutSlice : ∀ context physAddr virtPtr chunk,
    TensorChunk.new profile context physAddr virtPtr shape dtype = .ok chunk →
      ValidRawParts virtPtr chunk.byteLen →
        chunk.asMutSlice = .ok (virtPtr, shape.exactBytes dtype)
  slice : ∀ context physAddr virtPtr chunk size align,
    TensorChunk.new profile context physAddr virtPtr shape dtype = .ok chunk →
      ValidRawParts virtPtr chunk.byteLen →
        size = dtype.sizeInBytes → virtPtr.toNat % align = 0 →
          ∃ count, chunk.freeze.asSlice size align = .ok count ∧
            count * size = shape.exactBytes dtype
  refused : ∀ context physAddr virtPtr, 2 ^ 64 ≤ shape.exactBytes dtype →
    ∃ panic, TensorChunk.new profile context physAddr virtPtr shape dtype = .error panic

theorem new_exact {profile : Profile} {context : TraceContext} {physAddr virtPtr : UInt64}
    {shape : TensorShape} {dtype : DType} (ranked : shape.rank.toNat ≤ 4)
    (seen : shape.exactBytes dtype < 2 ^ 64 ∨ profile = .dev ∧ dtype.sizeInBytes ≠ 1) :
    TensorChunk.new profile context physAddr virtPtr shape dtype =
      if shape.exactBytes dtype < 2 ^ 64 then
        .ok ⟨context, shape, dtype, physAddr, virtPtr, shape.exactBytes dtype⟩
      else .error .arithmeticOverflow := by
  rw [new_multiplies profile context physAddr virtPtr dtype ranked]
  by_cases fits : shape.exactBytes dtype < 2 ^ 64
  · have product := clipped_bytes_exact fits
    rw [if_pos fits, mul_usize_of_fits profile (by rw [product]; exact fits), product]
    rfl
  · rcases seen with small | ⟨dev, wide⟩
    · exact absurd small fits
    · rw [if_neg fits, dev, mul_usize_dev_past (clipped_bytes_past (Nat.le_of_not_lt fits) wide)]
      rfl

theorem describes_of_seen {profile : Profile} {shape : TensorShape} {dtype : DType}
    (ranked : shape.rank.toNat ≤ 4)
    (seen : shape.exactBytes dtype < 2 ^ 64 ∨ profile = .dev ∧ dtype.sizeInBytes ≠ 1) :
    DescribesShape profile shape dtype := by
  have chunk_exact : ∀ context physAddr virtPtr chunk,
      TensorChunk.new profile context physAddr virtPtr shape dtype = .ok chunk →
        chunk = ⟨context, shape, dtype, physAddr, virtPtr, shape.exactBytes dtype⟩ := by
    intro context physAddr virtPtr chunk built
    rw [new_exact ranked seen] at built
    split at built
    · exact (Except.ok.inj built).symm
    · cases built
  constructor
  · intro context physAddr virtPtr chunk built
    rw [chunk_exact context physAddr virtPtr chunk built]
  · intro context physAddr virtPtr chunk built valid
    have same := chunk_exact context physAddr virtPtr chunk built
    subst same
    exact (as_mut_slice_ok_iff _ _).mpr ⟨valid, rfl⟩
  · intro context physAddr virtPtr chunk size align built valid sized aligned
    have same := chunk_exact context physAddr virtPtr chunk built
    subst same sized
    have whole : shape.exactBytes dtype % dtype.sizeInBytes = 0 := Nat.mul_mod_left _ _
    refine ⟨shape.exactBytes dtype / dtype.sizeInBytes, ?_, ?_⟩
    · exact (as_slice_ok_iff _ _ _ _).mpr ⟨rfl, whole, aligned, valid, rfl⟩
    · exact Nat.div_mul_cancel (Nat.dvd_of_mod_eq_zero whole)
  · intro context physAddr virtPtr past
    rw [new_exact ranked seen, if_neg (Nat.not_lt_of_le past)]
    exact ⟨_, rfl⟩

theorem seen_of_describes {profile : Profile} {shape : TensorShape} {dtype : DType}
    (ranked : shape.rank.toNat ≤ 4) (describes : DescribesShape profile shape dtype) :
    shape.exactBytes dtype < 2 ^ 64 ∨ profile = .dev ∧ dtype.sizeInBytes ≠ 1 := by
  by_cases fits : shape.exactBytes dtype < 2 ^ 64
  · exact Or.inl fits
  · obtain ⟨panic, refused⟩ := describes.refused ⟨0, 0, 0⟩ 0 0 (Nat.le_of_not_lt fits)
    rw [new_multiplies profile _ 0 0 dtype ranked] at refused
    cases product : mulUsize profile (clip (2 ^ 64 - 1) shape.exactElements)
        dtype.sizeInBytes with
    | ok byteLen =>
      rw [product] at refused
      cases refused
    | error cause =>
      obtain ⟨past, dev⟩ := mul_usize_error product
      refine Or.inr ⟨dev, ?_⟩
      intro single
      have clipped := clip_le (2 ^ 64 - 1) shape.exactElements
      rw [single, Nat.mul_one] at past
      omega

/-- The clipping hides an overflow from a multiplication by one, and a release
    build does not look. -/
theorem byte_length_exact_iff (profile : Profile) (shape : TensorShape) (dtype : DType)
    (ranked : shape.rank.toNat ≤ 4) :
    DescribesShape profile shape dtype ↔
      shape.exactBytes dtype < 2 ^ 64 ∨ profile = .dev ∧ dtype.sizeInBytes ≠ 1 :=
  ⟨seen_of_describes ranked, describes_of_seen ranked⟩

theorem byte_length_exact_iff_vector :
    (TensorShape.new1d 6).rank.toNat ≤ 4 ∧ DescribesShape .release (.new1d 6) .F32 :=
  ⟨by decide, (byte_length_exact_iff .release (.new1d 6) .F32 (by decide)).mpr
    (Or.inl (by decide))⟩

/-- 2^32 rows of 2^32 bytes come out one byte short, in either profile, and 2^62
    floats come out empty in a release build. -/
theorem byte_length_misses :
    ((TensorChunk.new .dev ⟨0, 0, 0⟩ 0 64 (.new2d 4294967296 4294967296) .U8).map
        TensorChunk.byteLen = .ok 18446744073709551615 ∧
      (TensorChunk.new .release ⟨0, 0, 0⟩ 0 64 (.new2d 4294967296 4294967296) .U8).map
        TensorChunk.byteLen = .ok 18446744073709551615 ∧
      (TensorShape.new2d 4294967296 4294967296).exactBytes .U8 = 18446744073709551616) ∧
    ((TensorChunk.new .release ⟨0, 0, 0⟩ 0 64 (.new1d 4611686018427387904) .F32).map
        TensorChunk.byteLen = .ok 0 ∧
      (TensorShape.new1d 4611686018427387904).exactBytes .F32 = 18446744073709551616) ∧
    ¬ ∀ (profile : Profile) (shape : TensorShape) (dtype : DType), shape.rank.toNat ≤ 4 →
      DescribesShape profile shape dtype := by
  refine ⟨⟨rfl, rfl, by decide⟩, ⟨rfl, by decide⟩, ?_⟩
  intro every
  have square := every .dev (.new2d 4294967296 4294967296) .U8 (by decide)
  rcases seen_of_describes (by decide) square with fits | ⟨_, wide⟩
  · exact absurd fits (by decide)
  · exact absurd wide (by decide)

end CellTensor
