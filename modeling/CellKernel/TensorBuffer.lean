import CellKernel.TensorSize
import CellKernel.WholeFloats

/-
The buffer behind a tensor chunk. as_mut_slice and as_slice read and write the
same bytes of memory, the ones from the virtual pointer on; numbers lie in it
in the byte order of x86_64, the least significant byte first.
-/
namespace CellTensor
open CellCore

/-- The bytes of memory by virtual address. -/
abbrev Bytes := Nat → UInt8

/-- to_ne_bytes of a number of the given size. -/
def toNeBytes : Nat → Nat → List UInt8
  | 0, _ => []
  | size + 1, word => UInt8.ofNat word :: toNeBytes size (word / 256)

def fromNeBytes : List UInt8 → Nat
  | [] => 0
  | byte :: rest => byte.toNat + 256 * fromNeBytes rest

/-- copy_from_slice to the bytes from address on. -/
def copyFromSlice (memory : Bytes) (address : Nat) : List UInt8 → Bytes
  | [] => memory
  | byte :: rest => copyFromSlice (Function.update memory address byte) (address + 1) rest

/-- copy_from_slice to each of so many chunks. -/
def copyToChunks (memory : Bytes) (address : Nat) (src : List UInt8) : Nat → Bytes
  | 0 => memory
  | chunks + 1 =>
      copyToChunks (copyFromSlice memory address src) (address + src.length) src chunks

/-- The loop over chunks_exact_mut, which leaves out a rest shorter than src. -/
def fillChunksExact (memory : Bytes) (slice : UInt64 × Nat) (src : List UInt8) : Bytes :=
  copyToChunks memory slice.1.toNat src (slice.2 / src.length)

def loadBytes (memory : Bytes) (address : Nat) : Nat → List UInt8
  | 0 => []
  | count + 1 => memory address :: loadBytes memory (address + 1) count

def loadElements (memory : Bytes) (address size : Nat) : Nat → List Nat
  | 0 => []
  | count + 1 =>
      fromNeBytes (loadBytes memory address size) ::
        loadElements memory (address + size) size count

/-- What as_slice shows of the memory. -/
def TensorChunk.elements (self : TensorChunk .ready) (memory : Bytes) (size align : Nat) :
    Except TensorPanic (List Nat) :=
  (self.asSlice size align).map (loadElements memory self.virtPtr.toNat size)

variable {memory : Bytes} {address size : Nat}

theorem ne_bytes_length (size word : Nat) : (toNeBytes size word).length = size := by
  induction size generalizing word with
  | zero => rfl
  | succ size ih => simp [toNeBytes, ih]

theorem ne_bytes_round_trip {size word : Nat} (fits : word < 256 ^ size) :
    fromNeBytes (toNeBytes size word) = word := by
  induction size generalizing word with
  | zero =>
    rw [Nat.pow_zero] at fits
    rw [toNeBytes, fromNeBytes]
    omega
  | succ size ih =>
    have rest : word / 256 < 256 ^ size := by
      rw [Nat.pow_succ] at fits
      exact Nat.div_lt_of_lt_mul (by omega)
    rw [toNeBytes, fromNeBytes, ih rest, UInt8.toNat_ofNat']
    omega

theorem copy_outside {data : List UInt8} {place : Nat}
    (outside : place < address ∨ address + data.length ≤ place) :
    copyFromSlice memory address data place = memory place := by
  induction data generalizing memory address with
  | nil => rfl
  | cons byte rest ih =>
    rw [List.length_cons] at outside
    rw [copyFromSlice, ih (by omega), Function.update_of_ne (by omega)]

theorem copy_append (memory : Bytes) (address : Nat) (data more : List UInt8) :
    copyFromSlice memory address (data ++ more) =
      copyFromSlice (copyFromSlice memory address data) (address + data.length) more := by
  induction data generalizing memory address with
  | nil => rfl
  | cons byte rest ih =>
    rw [List.cons_append, copyFromSlice, ih, copyFromSlice, List.length_cons]
    congr 1
    omega

theorem chunks_copy (memory : Bytes) (address : Nat) (src : List UInt8) (chunks : Nat) :
    copyToChunks memory address src chunks =
      copyFromSlice memory address (List.replicate chunks src).flatten := by
  induction chunks generalizing memory address with
  | zero => rfl
  | succ chunks ih => rw [copyToChunks, ih, List.replicate_succ, List.flatten_cons, copy_append]

theorem load_copied (data : List UInt8) :
    loadBytes (copyFromSlice memory address data) address data.length = data := by
  induction data generalizing memory address with
  | nil => rfl
  | cons byte rest ih =>
    have first : copyFromSlice memory address (byte :: rest) address = byte := by
      rw [copyFromSlice, copy_outside (Or.inl (by omega)), Function.update_self]
    rw [List.length_cons, loadBytes, first, copyFromSlice, ih]

theorem load_agrees {other : Bytes} {count : Nat}
    (agree : ∀ place, address ≤ place → place < address + count → other place = memory place) :
    loadBytes other address count = loadBytes memory address count := by
  induction count generalizing address with
  | zero => rfl
  | succ count ih =>
    have rest : ∀ place, address + 1 ≤ place → place < address + 1 + count →
        other place = memory place := fun place low high => agree place (by omega) (by omega)
    rw [loadBytes, loadBytes, agree address (by omega) (by omega), ih rest]

def layOut (size : Nat) (words : List Nat) : List UInt8 := (words.map (toNeBytes size)).flatten

theorem lay_out_length (size : Nat) (words : List Nat) :
    (layOut size words).length = words.length * size := by
  induction words with
  | nil => simp [layOut]
  | cons word rest ih =>
    have split : layOut size (word :: rest) = toNeBytes size word ++ layOut size rest := rfl
    rw [split, List.length_append, ne_bytes_length, ih, List.length_cons, Nat.succ_mul]
    omega

theorem elements_laid_out {words : List Nat} (fits : ∀ word ∈ words, word < 256 ^ size) :
    loadElements (copyFromSlice memory address (layOut size words)) address size words.length =
      words := by
  induction words generalizing memory address with
  | nil => rfl
  | cons word rest ih =>
    have split : layOut size (word :: rest) = toNeBytes size word ++ layOut size rest := rfl
    have first : loadBytes (copyFromSlice memory address (layOut size (word :: rest)))
        address size = toNeBytes size word := by
      have copied : loadBytes (copyFromSlice memory address (toNeBytes size word)) address _ = _ :=
        load_copied (toNeBytes size word)
      rw [ne_bytes_length] at copied
      rw [split, copy_append, ne_bytes_length]
      exact (load_agrees fun place _ high => copy_outside (Or.inl high)).trans copied
    rw [List.length_cons, loadElements, first,
      ne_bytes_round_trip (fits word List.mem_cons_self), split, copy_append, ne_bytes_length,
      ih fun other member => fits other (List.mem_cons_of_mem word member)]

theorem bind_ok_cases {A B : Type} {x : Except TensorPanic A} {f : A → Except TensorPanic B}
    {b : B} (ran : x >>= f = .ok b) : ∃ a, x = .ok a ∧ f a = .ok b := by
  cases x with
  | ok a => exact ⟨a, rfl, ran⟩
  | error panic => cases ran

theorem map_ok_cases {A B : Type} {x : Except TensorPanic A} {f : A → B} {b : B}
    (ran : x.map f = .ok b) : ∃ a, x = .ok a ∧ f a = b := by
  cases x with
  | ok a => exact ⟨a, rfl, Except.ok.inj ran⟩
  | error panic => cases ran

theorem new_fields {profile : Profile} {context : TraceContext} {physAddr virtPtr : UInt64}
    {shape : TensorShape} {dtype : DType} {chunk : TensorChunk .mutable}
    (built : TensorChunk.new profile context physAddr virtPtr shape dtype = .ok chunk) :
    ∃ byteLen, chunk = ⟨context, shape, dtype, physAddr, virtPtr, byteLen⟩ := by
  unfold TensorChunk.new at built
  obtain ⟨total, _, rest⟩ := bind_ok_cases built
  obtain ⟨byteLen, _, same⟩ := bind_ok_cases rest
  cases same
  exact ⟨byteLen, rfl⟩

/-- Elements written through the mutable slice of a chunk come back from the
    frozen one exactly when they are read as the dtype's size and the pointer is
    aligned for them. Writing them leaves all other memory as it was, and the
    chunk gives back the context and the frame it was built with. -/
theorem buffer_round_trip {profile : Profile} {context : TraceContext}
    {physAddr virtPtr : UInt64} {shape : TensorShape} {dtype : DType}
    {chunk : TensorChunk .mutable}
    (built : TensorChunk.new profile context physAddr virtPtr shape dtype = .ok chunk)
    (provided : Allocation virtPtr chunk.byteLen) (memory : Bytes) {words : List Nat}
    (fits : ∀ word ∈ words, word < 256 ^ dtype.sizeInBytes)
    (whole : (layOut dtype.sizeInBytes words).length = chunk.byteLen) :
    ∃ slice, chunk.asMutSlice = .ok slice ∧ slice = (virtPtr, chunk.byteLen) ∧
      (∀ size align read, chunk.freeze.elements
          (copyFromSlice memory slice.1.toNat (layOut dtype.sizeInBytes words))
          size align = .ok read ↔
        size = dtype.sizeInBytes ∧ virtPtr.toNat % align = 0 ∧ read = words) ∧
      (∀ place, place < virtPtr.toNat ∨ virtPtr.toNat + chunk.byteLen ≤ place →
        copyFromSlice memory slice.1.toNat (layOut dtype.sizeInBytes words) place =
          memory place) ∧
      chunk.freeze.deconstruct = (context, physAddr) := by
  obtain ⟨byteLen, rfl⟩ := new_fields built
  have positive := size_positive dtype
  have count : byteLen = words.length * dtype.sizeInBytes := whole.symm.trans (lay_out_length _ _)
  refine ⟨_, (as_mut_slice_ok_iff _ _).mpr ⟨provided.valid, rfl⟩, rfl, ?_, ?_, rfl⟩
  · intro size align read
    unfold TensorChunk.elements
    constructor
    · intro shown
      obtain ⟨len, sliced, same⟩ := map_ok_cases shown
      obtain ⟨sized, _, aligned, _, length⟩ := (as_slice_ok_iff _ size align len).mp sliced
      change size = dtype.sizeInBytes at sized
      change len = byteLen / size at length
      rw [sized, count, Nat.mul_div_cancel _ positive] at length
      refine ⟨sized, aligned, ?_⟩
      rw [← same, length, sized]
      exact elements_laid_out fits
    · rintro ⟨rfl, aligned, rfl⟩
      have divides : byteLen % dtype.sizeInBytes = 0 := by rw [count, Nat.mul_mod_left]
      have length : read.length = byteLen / dtype.sizeInBytes := by
        rw [count, Nat.mul_div_cancel _ positive]
      have sliced : TensorChunk.asSlice (TensorChunk.freeze ⟨context, shape, dtype, physAddr,
          virtPtr, byteLen⟩) dtype.sizeInBytes align = .ok read.length :=
        (as_slice_ok_iff _ _ _ _).mpr ⟨rfl, divides, aligned, provided.valid, length⟩
      rw [sliced]
      exact congrArg Except.ok (elements_laid_out fits)
  · intro place outside
    apply copy_outside
    rw [whole]
    exact outside

theorem buffer_round_trip_bytes : ∃ (chunk : TensorChunk .mutable) (slice : UInt64 × Nat),
    TensorChunk.new .dev ⟨42, 100, 7⟩ 32768 64 (.new1d 8) .U8 = .ok chunk ∧
      chunk.asMutSlice = .ok slice ∧
      chunk.freeze.elements (copyFromSlice (fun _ => 0) slice.1.toNat
        (layOut 1 [1, 2, 3, 4, 5, 6, 7, 8])) 1 1 = .ok [1, 2, 3, 4, 5, 6, 7, 8] := by
  have built : TensorChunk.new .dev ⟨42, 100, 7⟩ 32768 64 (.new1d 8) .U8 =
      .ok ⟨⟨42, 100, 7⟩, .new1d 8, .U8, 32768, 64, 8⟩ := rfl
  have provided : Allocation 64 8 := ⟨by decide, by decide⟩
  have fits : ∀ word ∈ [1, 2, 3, 4, 5, 6, 7, 8], word < 256 ^ DType.U8.sizeInBytes := by decide
  obtain ⟨slice, mutable, _, read, _⟩ := buffer_round_trip built provided (fun _ => 0) fits rfl
  exact ⟨_, slice, built, mutable, (read 1 1 _).mpr ⟨rfl, by decide, rfl⟩⟩

end CellTensor
