import Mathlib.Algebra.Group.Nat.Defs
import CellKernel.WordBitmap

/-
The physical frame allocator of crates/cell-baremetal/src/pmm.rs. usize is 64
bits; every plain + and - of the source is checked here, and so is every array
index, so a run without a fault is a run without overflow. A set bit of
allocated means that the frame cannot be handed out.
-/
namespace CellPmm
open CellBitmap

def frameSize : UInt64 := 4096
def maxPhysicalAddress : UInt64 := 4 * 1024 * 1024 * 1024
def maxFrames : Nat := (maxPhysicalAddress / frameSize).toNat
def bitmapWords : Nat := maxFrames / 64

/-- The field is private to pmm.rs: frames come from an address or from the
    allocator, so the address of a frame fits 64 bits. -/
structure PhysicalFrame where
  number : Nat
  addressable : number * 4096 < 2 ^ 64
  deriving DecidableEq

def PhysicalFrame.fromAddress (address : UInt64) : PhysicalFrame :=
  ⟨(address / frameSize).toNat, by
    have fits := address.toNat_lt
    simp only [UInt64.toNat_div, frameSize, UInt64.reduceToNat]
    omega⟩

def PhysicalFrame.address (frame : PhysicalFrame) : UInt64 :=
  UInt64.ofNat frame.number * frameSize

structure PmmStats where
  usableFrames : Nat
  freeFrames : Nat
  maxFrame : Nat
  deriving DecidableEq

/-- Entry types are numbered by the boot protocol; usable memory is type 0. -/
structure EntryType where
  code : UInt64
  deriving DecidableEq

def EntryType.USABLE : EntryType := ⟨0⟩

structure Entry where
  base : UInt64
  length : UInt64
  entryType : EntryType
  deriving DecidableEq

inductive PmmFault where
  | indexOutOfBounds
  | arithmeticOverflow
  deriving DecidableEq, Repr

abbrev Bitmap := Vector (BitVec 64) bitmapWords

structure BitmapPmm where
  usable : Bitmap
  allocated : Bitmap
  usableFrames : Nat
  freeFrames : Nat
  maxFrame : Nat
  deriving DecidableEq

def readWord (m : Bitmap) (index : Nat) : Except PmmFault (BitVec 64) :=
  match m[index]? with
  | some value => .ok value
  | none => .error .indexOutOfBounds

def writeWord (m : Bitmap) (index : Nat) (value : BitVec 64) : Except PmmFault Bitmap :=
  if index < bitmapWords then .ok (m.setIfInBounds index value) else .error .indexOutOfBounds

/-- m[index] |= mask -/
def orWord (m : Bitmap) (index : Nat) (mask : BitVec 64) : Except PmmFault Bitmap := do
  let old ← readWord m index
  writeWord m index (old ||| mask)

/-- m[index] &= mask -/
def andWord (m : Bitmap) (index : Nat) (mask : BitVec 64) : Except PmmFault Bitmap := do
  let old ← readWord m index
  writeWord m index (old &&& mask)

def addUsize (a b : Nat) : Except PmmFault Nat :=
  if a + b < 2 ^ 64 then .ok (a + b) else .error .arithmeticOverflow

def subUsize (a b : Nat) : Except PmmFault Nat :=
  if b ≤ a then .ok (a - b) else .error .arithmeticOverflow

/-- u64::checked_add -/
def checkedAdd (a b : UInt64) : Option UInt64 :=
  if a.toNat + b.toNat < 2 ^ 64 then some (a + b) else none

namespace BitmapPmm

def new : BitmapPmm where
  usable := Vector.replicate bitmapWords 0
  allocated := Vector.replicate bitmapWords (BitVec.allOnes 64)
  usableFrames := 0
  freeFrames := 0
  maxFrame := 0

def isUsable (self : BitmapPmm) (frame : Nat) : Except PmmFault Bool :=
  if frame < maxFrames then do
    let value ← readWord self.usable (frame / 64)
    pure (value &&& 1#64 <<< (frame % 64) != 0)
  else pure false

def isAllocated (self : BitmapPmm) (frame : Nat) : Except PmmFault Bool := do
  let value ← readWord self.allocated (frame / 64)
  pure (value &&& 1#64 <<< (frame % 64) != 0)

def markUsable (self : BitmapPmm) (frame : Nat) : Except PmmFault BitmapPmm := do
  if frame ≥ maxFrames then return self
  if ← self.isUsable frame then return self
  let usable ← orWord self.usable (frame / 64) (1#64 <<< (frame % 64))
  let allocated ← andWord self.allocated (frame / 64) (~~~(1#64 <<< (frame % 64)))
  let usableFrames ← addUsize self.usableFrames 1
  let freeFrames ← addUsize self.freeFrames 1
  let next ← addUsize frame 1
  return ⟨usable, allocated, usableFrames, freeFrames, max self.maxFrame next⟩

/-- for frame in first_frame..last_frame -/
def markFrames (self : BitmapPmm) : List Nat → Except PmmFault BitmapPmm
  | [] => .ok self
  | frame :: rest => do
    let marked ← self.markUsable frame
    marked.markFrames rest

/-- The body of the entry loop; every continue leaves the allocator as it is. -/
def markEntry (self : BitmapPmm) (entry : Entry) : Except PmmFault BitmapPmm :=
  if entry.entryType ≠ EntryType.USABLE then .ok self
  else match checkedAdd entry.base (frameSize - 1) with
  | none => .ok self
  | some sum =>
    let start := sum &&& ~~~(frameSize - 1)
    match checkedAdd entry.base entry.length with
    | none => .ok self
    | some sum =>
      let last := min sum maxPhysicalAddress
      if start ≥ last then .ok self
      else
        let firstFrame := (start / frameSize).toNat
        let lastFrame := (last / frameSize).toNat
        self.markFrames (List.range' firstFrame (lastFrame - firstFrame))

def markEntries (self : BitmapPmm) : List Entry → Except PmmFault BitmapPmm
  | [] => .ok self
  | entry :: rest => do
    let marked ← self.markEntry entry
    marked.markEntries rest

def stats (self : BitmapPmm) : PmmStats := ⟨self.usableFrames, self.freeFrames, self.maxFrame⟩

end BitmapPmm

@[irreducible] def BitmapPmm.initialize (self : BitmapPmm) (entries : List Entry) :
    Except PmmFault (PmmStats × BitmapPmm) := do
  let cleared : BitmapPmm := { self with
    usable := Vector.replicate bitmapWords 0
    allocated := Vector.replicate bitmapWords (BitVec.allOnes 64)
    usableFrames := 0
    freeFrames := 0
    maxFrame := 0 }
  let marked ← cleared.markEntries entries
  return (marked.stats, marked)

theorem max_frames_value : maxFrames = 1048576 := by decide
theorem bitmap_size : bitmapWords * 64 = maxFrames := by decide

theorem trailing_zeros_lt {available : BitVec 64} (nonzero : ¬ available = 0) :
    available.ctz.toNat < 64 := by
  have below := BitVec.ctz_lt_iff_ne_zero.mpr nonzero
  simpa [BitVec.lt_def] using below

theorem available_frame_lt (index : Fin bitmapWords) {available : BitVec 64}
    (nonzero : ¬ available = 0) : index.val * 64 + available.ctz.toNat < maxFrames := by
  have inside := index.isLt
  have offset := trailing_zeros_lt nonzero
  have size := bitmap_size
  omega

theorem small_frame_addressable {frame : Nat} (inside : frame < maxFrames) :
    frame * 4096 < 2 ^ 64 := by
  rw [max_frames_value] at inside
  omega

namespace BitmapPmm

def available (self : BitmapPmm) (index : Fin bitmapWords) : BitVec 64 :=
  self.usable[index] &&& ~~~self.allocated[index]

/-- for word_index in 0..BITMAP_WORDS, from the listed indices on. -/
def allocateFrom (self : BitmapPmm) :
    List (Fin bitmapWords) → Except PmmFault (Option PhysicalFrame × BitmapPmm)
  | [] => .ok (none, self)
  | index :: rest =>
    let available := self.available index
    if exhausted : available = 0 then self.allocateFrom rest
    else do
      let bit := available.ctz.toNat
      let frame := index.val * 64 + bit
      let allocated ← orWord self.allocated index.val (1#64 <<< bit)
      let freeFrames ← subUsize self.freeFrames 1
      return (some ⟨frame, small_frame_addressable (available_frame_lt index exhausted)⟩,
        { self with allocated := allocated, freeFrames := freeFrames })

/- The three public calls are known by their specifications; evaluating one
   would walk 16384 words. -/
@[irreducible] def allocate (self : BitmapPmm) :
    Except PmmFault (Option PhysicalFrame × BitmapPmm) :=
  self.allocateFrom (List.finRange bitmapWords)

@[irreducible] def free (self : BitmapPmm) (frame : PhysicalFrame) :
    Except PmmFault (Bool × BitmapPmm) := do
  let number := frame.number
  if !(← self.isUsable number) then return (false, self)
  if !(← self.isAllocated number) then return (false, self)
  let allocated ← andWord self.allocated (number / 64) (~~~(1#64 <<< (number % 64)))
  let freeFrames ← addUsize self.freeFrames 1
  return (true, { self with allocated := allocated, freeFrames := freeFrames })

end BitmapPmm

theorem address_value (frame : PhysicalFrame) : frame.address.toNat = frame.number * 4096 := by
  have fits := frame.addressable
  unfold PhysicalFrame.address frameSize
  rw [UInt64.toNat_mul, UInt64.toNat_ofNat_of_lt' (by simp only [UInt64.size]; omega)]
  exact Nat.mod_eq_of_lt fits

theorem from_address_of_frame (frame : PhysicalFrame) :
    PhysicalFrame.fromAddress frame.address = frame := by
  have value := address_value frame
  cases frame with
  | mk number addressable =>
    simp only [PhysicalFrame.fromAddress, PhysicalFrame.mk.injEq, UInt64.toNat_div, value]
    exact Nat.mul_div_cancel number (by decide)

theorem frame_ext {f g : PhysicalFrame} (same : f.number = g.number) : f = g := by
  cases f; cases g
  simp_all

theorem word_index_inside {frame : Nat} (inside : frame < maxFrames) :
    frame / 64 < bitmapWords := by
  have size := bitmap_size
  omega

theorem read_word (m : Bitmap) {index : Nat} (inside : index < bitmapWords) :
    readWord m index = .ok (word m index) := by
  unfold readWord word
  rw [Vector.getElem?_eq_getElem inside]
  rfl

theorem or_word (m : Bitmap) {index : Nat} (inside : index < bitmapWords) (mask : BitVec 64) :
    orWord m index mask = .ok (m.setIfInBounds index (word m index ||| mask)) := by
  unfold orWord
  rw [read_word m inside]
  simp [bind, Except.bind, writeWord, inside]

theorem or_mask (m : Bitmap) {frame : Nat} (inside : frame < maxFrames) :
    orWord m (frame / 64) (1#64 <<< (frame % 64)) = .ok (raise m frame) :=
  or_word m (word_index_inside inside) _

theorem and_mask (m : Bitmap) {frame : Nat} (inside : frame < maxFrames) :
    andWord m (frame / 64) (~~~(1#64 <<< (frame % 64))) = .ok (clear m frame) := by
  unfold andWord
  rw [read_word m (word_index_inside inside)]
  simp [bind, Except.bind, writeWord, word_index_inside inside, clear]

theorem masked_bit (m : Bitmap) (frame : Nat) :
    (word m (frame / 64) &&& 1#64 <<< (frame % 64) != 0) = bit m frame := by
  rw [Bool.eq_iff_iff, bne_iff_ne]
  exact masked_nonzero_iff m (by decide)

theorem is_usable_bit (pmm : BitmapPmm) (frame : Nat) :
    pmm.isUsable frame = .ok (bit pmm.usable frame) := by
  unfold BitmapPmm.isUsable
  split
  · rename_i inside
    rw [read_word _ (word_index_inside inside)]
    simp only [bind, Except.bind, pure, Except.pure]
    rw [masked_bit]
  · rename_i past
    rw [bit_outside pmm.usable (by rw [bitmap_size]; omega)]
    rfl

theorem is_allocated_bit (pmm : BitmapPmm) {frame : Nat} (inside : frame < maxFrames) :
    pmm.isAllocated frame = .ok (bit pmm.allocated frame) := by
  unfold BitmapPmm.isAllocated
  rw [read_word _ (word_index_inside inside)]
  simp only [bind, Except.bind, pure, Except.pure]
  rw [masked_bit]

/-- The unchecked index of is_allocated is out of range exactly past the map. -/
theorem is_allocated_faults_iff (pmm : BitmapPmm) (frame : Nat) :
    pmm.isAllocated frame = .error .indexOutOfBounds ↔ maxFrames ≤ frame := by
  constructor
  · intro faults
    by_contra inside
    rw [is_allocated_bit pmm (by omega)] at faults
    cases faults
  · intro past
    have size := bitmap_size
    have missing : pmm.allocated[frame / 64]? = none := Vector.getElem?_eq_none (by omega)
    simp [BitmapPmm.isAllocated, readWord, missing, bind, Except.bind]

theorem add_usize {a b : Nat} (fits : a + b < 2 ^ 64) : addUsize a b = .ok (a + b) := if_pos fits
theorem sub_usize {a b : Nat} (enough : b ≤ a) : subUsize a b = .ok (a - b) := if_pos enough

theorem page_mask_bits (x : BitVec 64) : x &&& ~~~4095#64 = (x >>> 12) <<< 12 := by
  apply BitVec.eq_of_getLsbD_eq
  intro i inside
  have ones : (4095#64).getLsbD i = decide (i < 12) := by
    rw [BitVec.getLsbD_ofNat, show 4095 = 2 ^ 12 - 1 from rfl, Nat.testBit_two_pow_sub_one]
    simp only [inside, decide_true, Bool.true_and]
  rw [BitVec.getLsbD_and, BitVec.getLsbD_not, ones, BitVec.getLsbD_shiftLeft,
    BitVec.getLsbD_ushiftRight]
  by_cases low : i < 12
  · simp [low]
  · simp [low, inside, show 12 + (i - 12) = i by omega]

theorem page_floor (x : UInt64) :
    (x &&& ~~~(frameSize - 1)).toNat = x.toNat / 4096 * 4096 := by
  have fits := x.toNat_lt
  have masked : (x &&& ~~~(frameSize - 1)).toBitVec = (x.toBitVec >>> 12) <<< 12 := by
    rw [← page_mask_bits]
    rfl
  rw [← UInt64.toNat_toBitVec, masked, BitVec.toNat_shiftLeft, BitVec.toNat_ushiftRight,
    UInt64.toNat_toBitVec, Nat.shiftLeft_eq, Nat.shiftRight_eq_div_pow]
  omega

theorem checked_add_fits {a b : UInt64} (fits : a.toNat + b.toNat < 2 ^ 64) :
    checkedAdd a b = some (a + b) := if_pos fits

theorem checked_add_wide {a b : UInt64} (wide : ¬ a.toNat + b.toNat < 2 ^ 64) :
    checkedAdd a b = none := if_neg wide

theorem sum_value {a b : UInt64} (fits : a.toNat + b.toNat < 2 ^ 64) :
    (a + b).toNat = a.toNat + b.toNat := by
  rw [UInt64.toNat_add]
  exact Nat.mod_eq_of_lt fits

theorem limited_value (sum : UInt64) :
    (min sum maxPhysicalAddress).toNat = min sum.toNat (2 ^ 32) := by
  have limit : maxPhysicalAddress.toNat = 2 ^ 32 := by decide
  have cases : min sum maxPhysicalAddress =
      if sum ≤ maxPhysicalAddress then sum else maxPhysicalAddress := rfl
  rw [cases]
  split
  · rename_i below
    rw [UInt64.le_iff_toNat_le, limit] at below
    omega
  · rename_i above
    rw [UInt64.le_iff_toNat_le, limit] at above
    omega

end CellPmm
