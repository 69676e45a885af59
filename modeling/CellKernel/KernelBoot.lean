import CellKernel.Kernel

/-
The boot of the BSP on a machine whose memory map leaves a free frame: the
allocator hands out the same frame twice, as the probe and for the tensor, and
every check before the start of the AP can be read off the machine.
-/
namespace CellKernel
open CellAllocator CellCore CellFifo CellPmm CellRuns CellTensor

variable {m : Machine}

/-- The allocator after initialize, the frame it hands out first and its state
    then. -/
structure Frames (m : Machine) where
  entries : List Entry
  stats : PmmStats
  ready : BitmapPmm
  taken : BitmapPmm
  frame : PhysicalFrame
  mapped : m.memoryMap = some entries
  initialized : BitmapPmm.initialize .new entries = .ok (stats, ready)
  allocated : ready.allocate = .ok (some frame, taken)

theorem initialized_represents {entries : List Entry} {stats : PmmStats} {pmm ready : BitmapPmm}
    (initialized : BitmapPmm.initialize pmm entries = .ok (stats, ready)) :
    Represents ready (.reset (usableSet entries)) := by
  obtain ⟨other, ran, rep⟩ := initialize_spec pmm entries
  rw [initialized] at ran
  cases ran
  exact rep

theorem frames_of_free {entries : List Entry} {stats : PmmStats} {ready : BitmapPmm}
    (mapped : m.memoryMap = some entries)
    (initialized : BitmapPmm.initialize .new entries = .ok (stats, ready))
    (some_free : 0 < ready.freeFrames) :
    ∃ f : Frames m, f.entries = entries ∧ f.stats = stats ∧ f.ready = ready := by
  have rep := initialized_represents initialized
  obtain ⟨frame, taken, ran, number, _⟩ := allocate_spec rep
  cases frame with
  | some frame =>
    exact ⟨⟨entries, stats, ready, taken, frame, mapped, initialized, ran⟩, rfl, rfl, rfl⟩
  | none =>
    have exhausted := (allocate_none_iff _).mp number.symm
    rw [rep.free_count, exhausted] at some_free
    cases some_free

namespace Frames

theorem represents (f : Frames m) : f.frame.number ∈ usableSet f.entries ∧
    ∃ t : SetAllocator Nat, t.usable = usableSet f.entries ∧ t.out = {f.frame.number} ∧
      Represents f.ready (.reset (usableSet f.entries)) ∧ Represents f.taken t := by
  have rep := initialized_represents f.initialized
  obtain ⟨frame, taken, ran, number, repTaken⟩ := allocate_spec rep
  rw [f.allocated] at ran
  cases ran
  obtain ⟨member, _, usable, out⟩ := allocate_some number.symm
  rw [free_reset] at member
  exact ⟨member, _, usable, out, rep, repTaken⟩

theorem freed (f : Frames m) : f.taken.free f.frame = .ok (true, f.ready) := by
  obtain ⟨_, t, usable, out, repReady, repTaken⟩ := f.represents
  have held : f.frame.number ∈ t.out := by
    rw [out]
    exact Finset.mem_singleton_self _
  obtain ⟨after, ran, repAfter⟩ := free_spec repTaken f.frame
  rw [release_out held] at ran repAfter
  have back : (⟨t.usable, t.out.erase f.frame.number,
      (Finset.erase_subset _ _).trans t.out_usable⟩ : SetAllocator Nat) =
        .reset (usableSet f.entries) := by
    apply allocator_ext
    · exact usable
    · simp [out, SetAllocator.reset]
  rw [back] at repAfter
  rw [ran, represents_unique repAfter repReady]

end Frames

def tensorAt (frame : PhysicalFrame) (virtual : UInt64) : TensorChunk .ready :=
  ⟨⟨100, 100, 0⟩, .new1d TENSOR_ELEMENTS, .F32, frame.address, virtual,
    TENSOR_ELEMENTS.toNat * DType.F32.sizeInBytes⟩

theorem frozen_tensor (frame : PhysicalFrame) (virtual : UInt64) :
    frozenTensor frame virtual =
      if virtual = 0 then .error .invalidRawParts else .ok (tensorAt frame virtual) := by
  unfold frozenTensor
  rw [new_1d_chunk _ _ _ _ _ _ (by decide)]
  by_cases null : virtual = 0
  · subst virtual
    rfl
  · have valid : ValidRawParts virtual (TENSOR_ELEMENTS.toNat * DType.F32.sizeInBytes) :=
      ⟨null, by decide⟩
    simp [null, bind, Except.bind, TensorChunk.asMutSlice, valid, tensorAt, pure, Except.pure,
      TensorChunk.freeze]

namespace Frames
variable (f : Frames m)

theorem ready_free : (CellBitmap.bit f.ready.usable f.frame.number &&
    !CellBitmap.bit f.ready.allocated f.frame.number) = true := by
  obtain ⟨member, t, _, _, repReady, _⟩ := f.represents
  rw [free_bits repReady (represents_inside repReady member), free_reset]
  exact member

theorem some_free : 0 < f.ready.freeFrames := by
  obtain ⟨member, _, _, _, rep, _⟩ := f.represents
  rw [rep.free_count, free_reset]
  exact Finset.card_pos.mpr ⟨_, member⟩

theorem taken_not_free : (CellBitmap.bit f.taken.usable f.frame.number &&
    !CellBitmap.bit f.taken.allocated f.frame.number) = false := by
  obtain ⟨member, t, usable, out, repReady, repTaken⟩ := f.represents
  rw [← Bool.not_eq_true, free_bits repTaken (represents_inside repReady member), mem_free, out]
  simp

def initializeCall : List (Core × PmmCall × PmmResult) :=
  [(.bsp, .initializeWith f.entries, .initialized f.stats)]

def probeCall : List (Core × PmmCall × PmmResult) :=
  f.initializeCall ++ [(.bsp, .allocate, .allocated (some f.frame))]

def returnCall : List (Core × PmmCall × PmmResult) :=
  f.probeCall ++ [(.bsp, .free f.frame, .freed true)]

def bootCalls : List (Core × PmmCall × PmmResult) :=
  f.returnCall ++ [(.bsp, .allocate, .allocated (some f.frame))]

variable {w : World m}

theorem initialize_step (fresh : w.pmm = .new) : initializePmm w =
    (w.called .bsp f.ready (.initializeWith f.entries) (.initialized f.stats)).boot .probing := by
  unfold initializePmm
  rw [f.mapped, fresh]
  simp only [f.initialized]

theorem probe_step (ready : w.pmm = f.ready) : probeFrame w =
    (w.called .bsp f.taken .allocate (.allocated (some f.frame))).boot
      (.returningProbe f.frame) := by
  unfold probeFrame
  rw [ready]
  simp only [f.allocated]

theorem return_step (taken : w.pmm = f.taken) : returnProbe w f.frame =
    (w.called .bsp f.ready (.free f.frame) (.freed true)).boot .requestingHhdm := by
  unfold returnProbe
  rw [taken]
  simp only [f.freed]

theorem allocate_step (ready : w.pmm = f.ready) (offset : UInt64) : allocateTensor w offset =
    { (w.called .bsp f.taken .allocate (.allocated (some f.frame))).boot
        (.preparing offset f.frame) with tensorFrame := some f.frame } := by
  unfold allocateTensor
  rw [ready]
  simp only [f.allocated]

end Frames

/-- A machine on which both cores start and the AP can read the tensor. -/
structure Boot (m : Machine) extends Frames m where
  offset : UInt64
  response : SmpResponse
  hhdm : m.hhdmOffset = some offset
  notNull : 0 < offset.toNat + frame.address.toNat
  inside : offset.toNat + frame.address.toNat + 4096 < 2 ^ 64
  aligned : (offset.toNat + frame.address.toNat) % 4 = 0
  smp : m.smp = some response
  processor : (response.cpus.any fun lapicId => lapicId != response.bspLapicId) = true

namespace Boot
variable (b : Boot m)

def tensor : TensorChunk .ready := tensorAt b.frame (b.offset + b.frame.address)

theorem addressable : b.offset.toNat + b.frame.address.toNat < 2 ^ 64 := by
  have inside := b.inside
  omega

theorem tensor_value : (b.offset + b.frame.address).toNat =
    b.offset.toNat + b.frame.address.toNat := sum_value b.addressable

theorem tensor_not_null : b.offset + b.frame.address ≠ 0 := by
  intro null
  have value := b.tensor_value
  have notNull := b.notNull
  rw [null] at value
  change 0 = _ at value
  omega

theorem tensor_reads : b.tensor.asSlice 4 4 = .ok TENSOR_ELEMENTS.toNat := by
  have value : (b.offset + b.frame.address).toNat % 4 = 0 := by
    rw [b.tensor_value]
    exact b.aligned
  exact (frozen_slice_iff _ _ _ _ DType.F32 4 _).mpr
    ⟨value, ⟨b.tensor_not_null, by decide⟩, rfl⟩

variable {w : World m}

theorem hhdm_step : requestHhdm w = w.boot (.allocatingTensor b.offset) := by
  unfold requestHhdm
  rw [b.hhdm]

theorem prepare_step : prepareTensor w b.offset b.frame = w.boot (.startingAp b.tensor) := by
  unfold prepareTensor
  rw [checked_add_fits b.addressable]
  simp only [frozen_tensor, if_neg b.tensor_not_null]
  rfl

include b in
theorem start_step (tensor : TensorChunk .ready) :
    startAp w tensor = { w with bsp := .awaitingAp tensor, ap := .starting } := by
  unfold startAp
  rw [b.smp]
  exact if_pos b.processor

def launched : World m :=
  { World.start m with
    pmm := b.taken
    bsp := .awaitingAp b.tensor
    ap := .starting
    tensorFrame := some b.frame
    pmmCalls := b.bootCalls }

theorem bsp_reaches {w next : World m} (reached : Reachable step (World.start m) w)
    (moves : bspStep w = .moves next) : Reachable step (World.start m) next :=
  .next .bsp reached trivial (step_of_moves moves)

theorem launched_reachable : Reachable step (World.start m) b.launched := by
  have initialized := bsp_reaches (.start) (w := World.start m)
    (congrArg Outcome.moves (b.initialize_step rfl))
  have probed := bsp_reaches initialized (congrArg Outcome.moves (b.probe_step rfl))
  have returned := bsp_reaches probed (congrArg Outcome.moves (b.return_step rfl))
  have mapped := bsp_reaches returned (congrArg Outcome.moves b.hhdm_step)
  have allocated := bsp_reaches mapped (congrArg Outcome.moves (b.allocate_step rfl b.offset))
  have prepared := bsp_reaches allocated (congrArg Outcome.moves b.prepare_step)
  exact bsp_reaches prepared (congrArg Outcome.moves (b.start_step b.tensor))

theorem reducing_completes {w : World m} (reached : Reachable step (World.start m) w)
    (here : w.ap = .reducing b.tensor) (taken : w.pmm = b.taken) :
    Reachable step (World.start m)
      { w.called .ap b.ready (.free b.frame) (.freed true) with
        ap := .finished, tensorComplete := true } := by
  have reduced : coreStep w .ap = .moves { w with ap := .freeing b.frame.address } := by
    simp only [coreStep, apStep, here, b.tensor_reads]
    rfl
  have reading := Reaches.next .ap reached trivial (step_of_moves reduced)
  have freed : coreStep { w with ap := .freeing b.frame.address } .ap =
      .moves { w.called .ap b.ready (.free b.frame) (.freed true) with
        ap := .completing true } := by
    simp only [coreStep, apStep, from_address_of_frame, taken, b.freed]
    rfl
  have returned := Reaches.next .ap reading trivial (step_of_moves freed)
  exact .next .ap returned trivial (step_of_moves rfl)

end Boot

/-- One frame of memory at 1 MiB, mapped in the higher half, two processors, an
    empty payload and one of four bytes. -/
def twoPacketMachine (completionCap : Nat) : Machine where
  memoryMap := some [⟨0x100000, 4096, EntryType.USABLE⟩]
  hhdmOffset := some 0xffff800000000000
  smp := some ⟨[0, 1], 0⟩
  batch := [⟨⟨1, 1, 0⟩, Vector.ofFn fun i => ([] : List UInt8)[i.val]?.getD 0, 0, by decide⟩,
    ⟨⟨2, 2, 0⟩, Vector.ofFn fun i => [67, 69, 76, 76][i.val]?.getD 0, 4, by decide⟩]
  countable := by decide
  interCap := 1
  completionCap := completionCap
  tensorCap := 1

def twoPacketInputs : List (TraceContext × List UInt8) :=
  [(⟨1, 1, 0⟩, []), (⟨2, 2, 0⟩, [67, 69, 76, 76])]

theorem two_packets_built (completionCap : Nat) : List.Forall₂
    (fun sent raw => RawPayload.new sent.1 sent.2 = .ok raw) twoPacketInputs
    (twoPacketMachine completionCap).batch :=
  .cons rfl (.cons rfl .nil)

theorem two_packet_map : usableSet [⟨0x100000, 4096, EntryType.USABLE⟩] = {256} := by
  ext frame
  have limit := max_frames_value
  simp only [mem_usable_set, List.mem_singleton, exists_eq_left, Finset.mem_singleton,
    FrameInside, UInt64.reduceToNat, true_and]
  omega

theorem two_packet_boot (completionCap : Nat) :
    Nonempty (Boot (twoPacketMachine completionCap)) := by
  obtain ⟨ready, initialized, rep⟩ := initialize_spec .new [⟨0x100000, 4096, EntryType.USABLE⟩]
  rw [two_packet_map] at rep
  have some_free : 0 < ready.freeFrames := by
    rw [rep.free_count, free_reset]
    decide
  obtain ⟨f, entries, _, _⟩ :=
    frames_of_free (m := twoPacketMachine completionCap) rfl initialized some_free
  have member := f.represents.1
  rw [entries, two_packet_map, Finset.mem_singleton] at member
  have address : f.frame.address.toNat = 0x100000 := by
    rw [address_value, member]
  exact ⟨{
    toFrames := f
    offset := 0xffff800000000000
    response := ⟨[0, 1], 0⟩
    hhdm := rfl
    notNull := by rw [address]; decide
    inside := by rw [address]; decide
    aligned := by rw [address]; decide
    smp := rfl
    processor := by decide }⟩

end CellKernel
