import CellKernel.KernelFairness
import CellKernel.PmmMemoryMap
import CellKernel.TensorReduction

/-
The kernel with the data that the step relation of the two cores leaves out:
the bytes of memory, TENSOR_SUM_BITS, and what the two cores print about the
tensor. The BSP fills the tensor before it starts the AP; the AP adds it up
and stores the bits before it frees the frame.
-/
namespace CellKernel
open CellFifo CellPmm CellRuns CellTensor

variable {m : Machine}

/-- sum is what the AP has computed, with the element count; verdict says which
    of its two lines it prints, and tensorSum is the sum that the BSP prints. -/
structure DataWorld (m : Machine) where
  world : World m
  memory : Bytes
  sumBits : UInt64
  sum : Option (Float32 × Nat)
  verdict : Option Bool
  tensorSum : Option Float32

def DataWorld.start (m : Machine) (memory : Bytes) : DataWorld m :=
  ⟨World.start m, memory, 0, none, none, none⟩

/-- What a move of the BSP does besides: as_mut_slice of the tensor is filled
    when it is prepared, and the bits are loaded once the tensor is complete. -/
def DataWorld.bspData (d : DataWorld m) (next : World m) : DataWorld m :=
  match d.world.bsp, next.bsp with
  | .booting (.preparing _ _), .booting (.startingAp tensor) =>
      { d with
        world := next
        memory := fillChunksExact d.memory (tensor.virtPtr, tensor.byteLen) oneBytes }
  | .awaitingTensor, .reporting _ =>
      { d with world := next, tensorSum := some (fromSumBits d.sumBits) }
  | _, _ => { d with world := next }

def DataWorld.apData (d : DataWorld m) (next : World m) : DataWorld m :=
  match d.world.ap with
  | .reducing tensor =>
      match tensor.elements d.memory 4 4 with
      | .error _ => { d with world := next }
      | .ok words =>
          { d with
            world := next
            sum := some (reduce (f32Values words))
            sumBits := CellTensor.sumBits (reduce (f32Values words)).1 }
  | .completing returned =>
      { d with
        world := next
        verdict := d.sum.map fun (sum, _) => returned && sum.beq TENSOR_ELEMENTS.toFloat32 }
  | _ => { d with world := next }

def DataWorld.after (d : DataWorld m) (next : World m) : Core → DataWorld m
  | .bsp => d.bspData next
  | .ap => d.apData next

def dataStep (d : DataWorld m) (core : Core) : Option (DataWorld m) :=
  match coreStep d.world core with
  | .moves next => some (d.after next core)
  | .spins => some d
  | .stops => none

section
variable {d e : DataWorld m} {core : Core}

theorem after_world (d : DataWorld m) (next : World m) (core : Core) :
    (d.after next core).world = next := by
  cases core with
  | bsp =>
    simp only [DataWorld.after, DataWorld.bspData]
    split <;> rfl
  | ap =>
    simp only [DataWorld.after, DataWorld.apData]
    split
    · split <;> rfl
    · rfl
    · rfl

theorem ap_after (unread : ∀ tensor, d.world.ap ≠ .reducing tensor)
    (unfinished : ∀ returned, d.world.ap ≠ .completing returned) (next : World m) :
    d.after next .ap = { d with world := next } := by
  cases here : d.world.ap with
  | reducing tensor => exact absurd here (unread tensor)
  | completing returned => exact absurd here (unfinished returned)
  | _ => simp only [DataWorld.after, DataWorld.apData, here]

theorem data_step_moves {next : World m} (moves : coreStep d.world core = .moves next) :
    dataStep d core = some (d.after next core) := by
  unfold dataStep
  rw [moves]

theorem data_step_cases (taken : dataStep d core = some e) :
    (∃ next, coreStep d.world core = .moves next ∧ e = d.after next core) ∨ e = d := by
  unfold dataStep at taken
  split at taken
  · rename_i next moves
    cases taken
    exact Or.inl ⟨next, moves, rfl⟩
  · cases taken
    exact Or.inr rfl
  · cases taken

theorem data_run_projects {memory : Bytes}
    (reached : Reachable dataStep (DataWorld.start m memory) d) :
    Reachable step (World.start m) d.world := by
  induction reached with
  | start => exact .start
  | next core before _ taken ih =>
    rcases data_step_cases taken with ⟨next, moves, rfl⟩ | rfl
    · rw [after_world]
      exact .next core ih trivial (step_of_moves moves)
    · exact ih

theorem data_run_lifts {w : World m} (reached : Reachable step d.world w) :
    ∃ e, Reachable dataStep d e ∧ e.world = w := by
  induction reached with
  | start => exact ⟨_, .start, rfl⟩
  | @next _ next core before _ taken ih =>
    obtain ⟨d, reached, rfl⟩ := ih
    rcases step_cases taken with moves | ⟨_, rfl⟩
    · exact ⟨_, .next core reached trivial (data_step_moves moves), after_world ..⟩
    · exact ⟨d, reached, rfl⟩

/-- The induction rule: spinning changes nothing. -/
theorem data_kept_by_moves {memory : Bytes} {holds : DataWorld m → Prop}
    (base : holds (DataWorld.start m memory))
    (keep : ∀ d core next, Reachable dataStep (DataWorld.start m memory) d → holds d →
      coreStep d.world core = .moves next → holds (d.after next core))
    (reached : Reachable dataStep (DataWorld.start m memory) d) : holds d := by
  apply holds_throughout base _ reached
  intro d core e before held _ taken
  rcases data_step_cases taken with ⟨next, moves, rfl⟩ | rfl
  · exact keep d core next before held moves
  · exact held

end

/-- The tensor over the given frame, as the boot has filled it: all its elements
    are ones, and no other byte has changed. -/
structure Prepared (memory : Bytes) (d : DataWorld m) (tensor : TensorChunk .ready) : Prop where
  place : ∃ offset frame, m.hhdmOffset = some offset ∧ d.world.tensorFrame = some frame ∧
    checkedAdd offset frame.address = some tensor.virtPtr
  shape : tensor = ⟨⟨100, 100, 0⟩, .new1d TENSOR_ELEMENTS, .F32, tensor.physAddr, tensor.virtPtr,
    TENSOR_ELEMENTS.toNat * DType.F32.sizeInBytes⟩
  filled : d.memory = fillChunksExact memory (tensor.virtPtr, tensor.byteLen) oneBytes

structure Summed (d : DataWorld m) : Prop where
  sum : d.sum = some (asF32 TENSOR_ELEMENTS.toNat, TENSOR_ELEMENTS.toNat)
  bits : d.sumBits = CellTensor.sumBits (asF32 TENSOR_ELEMENTS.toNat)

def DataWorld.BspData (d : DataWorld m) (memory : Bytes) : BspPc m.batch.length → Prop
  | .booting (.allocatingTensor offset) => m.hhdmOffset = some offset ∧ d.memory = memory
  | .booting (.preparing offset frame) =>
      m.hhdmOffset = some offset ∧ d.world.tensorFrame = some frame ∧ d.memory = memory
  | .booting (.startingAp tensor) => Prepared memory d tensor
  | .booting _ => d.memory = memory
  | .awaitingAp tensor => Prepared memory d tensor
  | .sending tensor => Prepared memory d tensor
  | .awaitingTensor => ∃ tensor, Prepared memory d tensor
  | .reporting _ => (∃ tensor, Prepared memory d tensor) ∧ d.tensorSum ≠ none
  | .finished _ => (∃ tensor, Prepared memory d tensor) ∧ d.tensorSum ≠ none
  | .halted _ _ => d.memory = memory ∨ ∃ tensor, Prepared memory d tensor

def DataWorld.ApData (d : DataWorld m) (memory : Bytes) : ApPc → Prop
  | .reducing tensor => Prepared memory d tensor
  | .freeing _ => Summed d
  | .completing _ => Summed d
  | .finished => Summed d ∧ d.verdict = some true
  | _ => True

structure DataInv (memory : Bytes) (d : DataWorld m) : Prop where
  bsp : d.BspData memory d.world.bsp
  ap : d.ApData memory d.world.ap
  queue : ∀ tensor ∈ d.world.tensors.items, Prepared memory d tensor
  complete : d.world.tensorComplete = true → Summed d
  verdict : ∀ shown, d.verdict = some shown → shown = true
  tensorSum : ∀ sum, d.tensorSum = some sum → sum = asF32 TENSOR_ELEMENTS.toNat

theorem quiet_while_booting {w : World m} (reached : Reachable step (World.start m) w) :
    ∀ pc, w.bsp = .booting pc → w.tensors.items = [] ∧ w.tensorComplete = false := by
  apply kept_by_moves _ _ reached
  · intro pc _
    exact ⟨rfl, rfl⟩
  · intro w core next before quiet moves
    have parked := parked_while_booting before
    cases core_move_cases moves with
    | inl move =>
      cases move with
      | booted pc later next here same ap there nearer =>
        intro _ _
        rw [same.tensors, same.tensorComplete]
        exact quiet pc here
      | bootFailed pc why held next here same ap there during =>
        intro later booting
        rw [there] at booting
        cases booting
      | sent => exact quiet
      | _ => intro later booting; cases booting
    | inr move =>
      cases move <;> (intro pc booting; have stuck := parked pc booting; simp_all)

section
variable {memory : Bytes} {d e : DataWorld m}

theorem prepared_same {tensor : TensorChunk .ready} (prepared : Prepared memory d tensor)
    (frame : e.world.tensorFrame = d.world.tensorFrame) (same : e.memory = d.memory) :
    Prepared memory e tensor := by
  obtain ⟨place, shape, filled⟩ := prepared
  exact ⟨by rw [frame]; exact place, shape, same.trans filled⟩

theorem summed_same (summed : Summed d) (sum : e.sum = d.sum) (bits : e.sumBits = d.sumBits) :
    Summed e :=
  ⟨sum.trans summed.sum, bits.trans summed.bits⟩

theorem data_inv_start (memory : Bytes) : DataInv memory (DataWorld.start m memory) := by
  constructor
  · rfl
  · trivial
  · intro tensor queued
    cases queued
  · intro complete
    cases complete
  · intro shown none
    cases none
  · intro sum none
    cases none

/-- While the BSP boots, only what it makes of memory is of interest. -/
theorem data_inv_boot (inv : DataInv memory d) (bsp : e.BspData memory e.world.bsp)
    (ap : e.world.ap = .parked ∨ e.world.ap = .starting) (queue : e.world.tensors.items = [])
    (incomplete : e.world.tensorComplete = false) (verdict : e.verdict = d.verdict)
    (tensorSum : e.tensorSum = d.tensorSum) : DataInv memory e := by
  constructor
  · exact bsp
  · rcases ap with parked | starting
    · rw [parked]
      trivial
    · rw [starting]
      trivial
  · intro tensor queued
    rw [queue] at queued
    cases queued
  · intro complete
    rw [incomplete] at complete
    cases complete
  · rw [verdict]
    exact inv.verdict
  · rw [tensorSum]
    exact inv.tensorSum

theorem bsp_data_other {next : World m} {pc : BootPc} (here : d.world.bsp = .booting pc)
    (other : ∀ offset frame, pc ≠ .preparing offset frame) :
    d.bspData next = { d with world := next } := by
  unfold DataWorld.bspData
  rw [here]
  split
  · rename_i offset frame tensor same _
    cases same
    exact absurd rfl (other offset frame)
  · rename_i impossible _
    cases impossible
  · rfl

section
variable (inv : DataInv memory d) (parked : d.world.ap = .parked)
  (queue : d.world.tensors.items = []) (incomplete : d.world.tensorComplete = false)
  {next : World m}
include inv parked queue incomplete

/-- The boot has filled the tensor, or halted before it wrote anything. -/
theorem data_prepared {offset : UInt64} {frame : PhysicalFrame}
    (here : d.world.bsp = .booting (.preparing offset frame))
    (moved : bootStep d.world (.preparing offset frame) = next) :
    DataInv memory (d.bspData next) := by
  have knows := inv.bsp
  rw [here] at knows
  obtain ⟨mapped, allocated, untouched⟩ := knows
  simp only [bootStep, prepareTensor] at moved
  split at moved
  · subst moved
    simp only [DataWorld.bspData, here, World.halt]
    exact data_inv_boot inv (Or.inl untouched) (Or.inl parked) queue incomplete rfl rfl
  · rename_i virtual added
    rw [frozen_tensor] at moved
    by_cases null : virtual = 0
    · rw [if_pos null] at moved
      subst moved
      simp only [DataWorld.bspData, here, World.halt]
      exact data_inv_boot inv (Or.inl untouched) (Or.inl parked) queue incomplete rfl rfl
    · rw [if_neg null] at moved
      subst moved
      simp only [DataWorld.bspData, here, World.boot]
      exact data_inv_boot inv ⟨⟨offset, frame, mapped, allocated, added⟩, rfl, by rw [untouched]⟩
        (Or.inl parked) queue incomplete rfl rfl

theorem data_started {tensor : TensorChunk .ready}
    (here : d.world.bsp = .booting (.startingAp tensor))
    (moved : bootStep d.world (.startingAp tensor) = next) : DataInv memory (d.bspData next) := by
  have knows := inv.bsp
  rw [here] at knows
  have prepared : Prepared memory d tensor := knows
  rw [bsp_data_other here (by intros; simp)]
  simp only [bootStep, startAp] at moved
  split at moved
  · subst moved
    exact data_inv_boot inv (Or.inr ⟨tensor, prepared_same prepared rfl rfl⟩) (Or.inl parked)
      queue incomplete rfl rfl
  · split at moved
    · subst moved
      exact data_inv_boot inv (prepared_same prepared rfl rfl) (Or.inr rfl) queue incomplete
        rfl rfl
    · subst moved
      exact data_inv_boot inv (Or.inr ⟨tensor, prepared_same prepared rfl rfl⟩) (Or.inl parked)
        queue incomplete rfl rfl

end

theorem data_boot (inv : DataInv memory d) {pc : BootPc} (here : d.world.bsp = .booting pc)
    (parked : d.world.ap = .parked) (queue : d.world.tensors.items = [])
    (incomplete : d.world.tensorComplete = false) {next : World m}
    (moved : bootStep d.world pc = next) : DataInv memory (d.bspData next) := by
  have knows := inv.bsp
  rw [here] at knows
  cases pc with
  | initializing =>
    rw [bsp_data_other here (by intros; simp)]
    simp only [bootStep, initializePmm] at moved
    split at moved
    · subst moved
      exact data_inv_boot inv (Or.inl knows) (Or.inl parked) queue incomplete rfl rfl
    · split at moved
      · subst moved
        exact data_inv_boot inv (Or.inl knows) (Or.inl parked) queue incomplete rfl rfl
      · subst moved
        exact data_inv_boot inv knows (Or.inl parked) queue incomplete rfl rfl
  | probing =>
    rw [bsp_data_other here (by intros; simp)]
    simp only [bootStep, probeFrame] at moved
    split at moved
    · subst moved
      exact data_inv_boot inv (Or.inl knows) (Or.inl parked) queue incomplete rfl rfl
    · subst moved
      exact data_inv_boot inv (Or.inl knows) (Or.inl parked) queue incomplete rfl rfl
    · subst moved
      exact data_inv_boot inv knows (Or.inl parked) queue incomplete rfl rfl
  | returningProbe probe =>
    rw [bsp_data_other here (by intros; simp)]
    simp only [bootStep, returnProbe] at moved
    split at moved
    · subst moved
      exact data_inv_boot inv (Or.inl knows) (Or.inl parked) queue incomplete rfl rfl
    · subst moved
      exact data_inv_boot inv (Or.inl knows) (Or.inl parked) queue incomplete rfl rfl
    · subst moved
      exact data_inv_boot inv knows (Or.inl parked) queue incomplete rfl rfl
  | requestingHhdm =>
    rw [bsp_data_other here (by intros; simp)]
    simp only [bootStep, requestHhdm] at moved
    split at moved
    · subst moved
      exact data_inv_boot inv (Or.inl knows) (Or.inl parked) queue incomplete rfl rfl
    · rename_i offset mapped
      subst moved
      exact data_inv_boot inv ⟨mapped, knows⟩ (Or.inl parked) queue incomplete rfl rfl
  | allocatingTensor offset =>
    obtain ⟨mapped, untouched⟩ := knows
    rw [bsp_data_other here (by intros; simp)]
    simp only [bootStep, allocateTensor] at moved
    split at moved
    · subst moved
      exact data_inv_boot inv (Or.inl untouched) (Or.inl parked) queue incomplete rfl rfl
    · subst moved
      exact data_inv_boot inv (Or.inl untouched) (Or.inl parked) queue incomplete rfl rfl
    · subst moved
      exact data_inv_boot inv ⟨mapped, rfl, untouched⟩ (Or.inl parked) queue incomplete rfl rfl
  | preparing offset frame => exact data_prepared inv parked queue incomplete here moved
  | startingAp tensor => exact data_started inv parked queue incomplete here moved

theorem bsp_data_same (frame : e.world.tensorFrame = d.world.tensorFrame)
    (bytes : e.memory = d.memory) (tensorSum : e.tensorSum = d.tensorSum)
    {pc : BspPc m.batch.length} (knows : d.BspData memory pc) : e.BspData memory pc := by
  have carried : ∀ tensor, Prepared memory d tensor → Prepared memory e tensor :=
    fun _ prepared => prepared_same prepared frame bytes
  cases pc with
  | booting pc => cases pc <;> simp_all [DataWorld.BspData]
  | awaitingAp tensor => exact carried tensor knows
  | sending tensor => exact carried tensor knows
  | awaitingTensor => exact knows.imp carried
  | reporting report => exact ⟨knows.1.imp carried, by rw [tensorSum]; exact knows.2⟩
  | finished report => exact ⟨knows.1.imp carried, by rw [tensorSum]; exact knows.2⟩
  | halted why held => exact knows.imp bytes.trans fun prepared => prepared.imp carried

theorem ap_data_same (frame : e.world.tensorFrame = d.world.tensorFrame)
    (bytes : e.memory = d.memory) (sum : e.sum = d.sum) (bits : e.sumBits = d.sumBits)
    (verdict : e.verdict = d.verdict) {pc : ApPc} (knows : d.ApData memory pc) :
    e.ApData memory pc := by
  cases pc with
  | reducing tensor => exact prepared_same knows frame bytes
  | freeing physAddr => exact summed_same knows sum bits
  | completing returned => exact summed_same knows sum bits
  | finished => exact ⟨summed_same knows.1 sum bits, verdict.trans knows.2⟩
  | _ => trivial

theorem data_inv_moved (inv : DataInv memory d) {next : World m}
    (frame : next.tensorFrame = d.world.tensorFrame)
    (bsp : d.BspData memory next.bsp) (ap : d.ApData memory next.ap)
    (queue : ∀ tensor ∈ next.tensors.items, Prepared memory d tensor)
    (complete : next.tensorComplete = true → Summed d) :
    DataInv memory { d with world := next } := by
  constructor
  · exact bsp_data_same (d := d) (e := { d with world := next }) frame rfl rfl bsp
  · exact ap_data_same (d := d) (e := { d with world := next }) frame rfl rfl rfl rfl ap
  · intro tensor queued
    exact prepared_same (queue tensor queued) frame rfl
  · intro done
    exact summed_same (complete done) rfl rfl
  · exact inv.verdict
  · exact inv.tensorSum

theorem data_bsp (inv : DataInv memory d) {next : World m} (move : BspMove d.world next)
    (launched : ∀ pc, d.world.bsp ≠ .booting pc) : DataInv memory (d.bspData next) := by
  have knows := inv.bsp
  cases move with
  | booted pc later next here same ap there nearer => exact absurd here (launched pc)
  | bootFailed pc why held next here same ap there during => exact absurd here (launched pc)
  | apStarted tensor here => exact absurd here (launched _)
  | apSeen tensor here ready =>
    rw [here] at knows
    simp only [DataWorld.bspData, here]
    exact data_inv_moved inv rfl knows inv.ap inv.queue inv.complete
  | sent tensor raw rest interCore here unsent pushed =>
    simp only [DataWorld.bspData, here]
    exact data_inv_moved inv rfl (here ▸ knows) inv.ap inv.queue inv.complete
  | tensorRefused tensor here unsent full =>
    rw [here] at knows
    simp only [DataWorld.bspData, here, World.halt]
    exact data_inv_moved inv rfl (Or.inr ⟨tensor, knows⟩) inv.ap inv.queue inv.complete
  | tensorSent tensor tensors here unsent pushed =>
    rw [here] at knows
    have items := ((push_some_iff _ _ _).mp pushed).2
    simp only [DataWorld.bspData, here]
    refine data_inv_moved inv rfl ⟨tensor, knows⟩ inv.ap ?_ inv.complete
    intro other queued
    rw [items, List.mem_append, List.mem_singleton] at queued
    rcases queued with before | rfl
    · exact inv.queue other before
    · exact knows
  | tensorSeen here complete =>
    rw [here] at knows
    obtain ⟨tensor, prepared⟩ := knows
    have summed := inv.complete complete
    simp only [DataWorld.bspData, here]
    constructor
    · exact ⟨⟨tensor, prepared_same prepared rfl rfl⟩, Option.some_ne_none _⟩
    · apply ap_data_same _ _ _ _ _ inv.ap <;> rfl
    · intro tensor queued
      exact prepared_same (inv.queue tensor queued) rfl rfl
    · intro _
      exact summed_same summed rfl rfl
    · exact inv.verdict
    · intro sum shown
      cases shown
      rw [summed.bits]
      exact bits_come_back (by decide)
  | reported report later result completion here more popped recorded =>
    rw [here] at knows
    simp only [DataWorld.bspData, here]
    exact data_inv_moved inv rfl knows inv.ap inv.queue inv.complete
  | countOverflowed report result completion here more popped overflow =>
    rw [here] at knows
    simp only [DataWorld.bspData, here]
    exact data_inv_moved inv rfl (Or.inr knows.1) inv.ap inv.queue inv.complete
  | finished report here all =>
    rw [here] at knows
    simp only [DataWorld.bspData, here]
    exact data_inv_moved inv rfl knows inv.ap inv.queue inv.complete

theorem prepared_reduces {tensor : TensorChunk .ready} (prepared : Prepared memory d tensor)
    {words : List Nat} (read : tensor.elements d.memory 4 4 = .ok words) :
    reduce (f32Values words) = (asF32 TENSOR_ELEMENTS.toNat, TENSOR_ELEMENTS.toNat) := by
  obtain ⟨_, shape, filled⟩ := prepared
  obtain ⟨count, sliced, rfl⟩ := map_ok_cases read
  have length : tensor.byteLen = TENSOR_ELEMENTS.toNat * 4 := congrArg TensorChunk.byteLen shape
  have elements : count = TENSOR_ELEMENTS.toNat := by
    rw [shape] at sliced
    exact ((frozen_slice_iff _ _ _ _ DType.F32 4 count).mp sliced).2.2
  rw [filled, length, elements, filled_elements, reduce_ones, Nat.min_eq_left (by decide)]

theorem data_reduced (inv : DataInv memory d) {tensor : TensorChunk .ready} {count : Nat}
    (here : d.world.ap = .reducing tensor) (sliced : tensor.asSlice 4 4 = .ok count) :
    DataInv memory (d.apData { d.world with ap := .freeing tensor.physAddr }) := by
  have knows := inv.ap
  rw [here] at knows
  have prepared : Prepared memory d tensor := knows
  have read : tensor.elements d.memory 4 4 =
      .ok (loadElements d.memory tensor.virtPtr.toNat 4 count) := by
    rw [TensorChunk.elements, sliced]
    rfl
  have total := prepared_reduces prepared read
  simp only [DataWorld.apData, here, read, total]
  have summed : Summed { d with
      sum := some (asF32 TENSOR_ELEMENTS.toNat, TENSOR_ELEMENTS.toNat)
      sumBits := CellTensor.sumBits (asF32 TENSOR_ELEMENTS.toNat) } := ⟨rfl, rfl⟩
  constructor
  · apply bsp_data_same _ _ _ inv.bsp <;> rfl
  · exact summed_same summed rfl rfl
  · intro other queued
    exact prepared_same (inv.queue other queued) rfl rfl
  · intro _
    exact summed_same summed rfl rfl
  · exact inv.verdict
  · exact inv.tensorSum

theorem data_completed (inv : DataInv memory d) {returned : Bool}
    (here : d.world.ap = .completing returned) (freed : returned = true) :
    DataInv memory (d.apData { d.world with tensorComplete := true, ap := .finished }) := by
  have knows := inv.ap
  rw [here] at knows
  have summed : Summed d := knows
  have checked : (d.sum.map fun (sum, _) =>
      returned && sum.beq TENSOR_ELEMENTS.toFloat32) = some true := by
    have equal : (asF32 TENSOR_ELEMENTS.toNat).beq TENSOR_ELEMENTS.toFloat32 = true :=
      (equal_as_f32_iff (by decide) (by decide)).mpr rfl
    rw [summed.sum, freed]
    exact congrArg some equal
  simp only [DataWorld.apData, here, checked]
  constructor
  · apply bsp_data_same _ _ _ inv.bsp <;> rfl
  · exact ⟨summed_same summed rfl rfl, rfl⟩
  · intro other queued
    exact prepared_same (inv.queue other queued) rfl rfl
  · intro _
    exact summed_same summed rfl rfl
  · intro shown same
    cases same
    rfl
  · exact inv.tensorSum

theorem data_ap (inv : DataInv memory d) {next : World m} (move : ApMove d.world next)
    (returns : ∀ returned, d.world.ap = .completing returned → returned = true) :
    DataInv memory (d.apData next) := by
  have knows := inv.ap
  cases move with
  | started here =>
    simp only [DataWorld.apData, here]
    exact data_inv_moved inv rfl inv.bsp trivial inv.queue inv.complete
  | taken raw interCore here more popped =>
    simp only [DataWorld.apData, here]
    exact data_inv_moved inv rfl inv.bsp trivial inv.queue inv.complete
  | batchDone here all =>
    simp only [DataWorld.apData, here]
    exact data_inv_moved inv rfl inv.bsp trivial inv.queue inv.complete
  | returned raw result completion here pushed =>
    simp only [DataWorld.apData, here]
    exact data_inv_moved inv rfl inv.bsp trivial inv.queue inv.complete
  | counted here =>
    simp only [DataWorld.apData, here]
    exact data_inv_moved inv rfl inv.bsp trivial inv.queue inv.complete
  | tensorTaken tensor tensors here popped =>
    have items := (pop_some_iff _ _ _).mp popped
    have queued : ∀ other ∈ tensor :: tensors.items, Prepared memory d other := by
      rw [← items]
      exact inv.queue
    simp only [DataWorld.apData, here]
    exact data_inv_moved inv rfl inv.bsp (queued tensor List.mem_cons_self)
      (fun other member => queued other (List.mem_cons_of_mem _ member)) inv.complete
  | reductionPanicked tensor panic here refused =>
    have unread : tensor.elements d.memory 4 4 = .error panic := by
      rw [TensorChunk.elements, refused]
      rfl
    simp only [DataWorld.apData, here, unread]
    exact data_inv_moved inv rfl inv.bsp trivial inv.queue inv.complete
  | reduced tensor count here sliced => exact data_reduced inv here sliced
  | freePanicked physAddr fault here refused =>
    simp only [DataWorld.apData, here]
    exact data_inv_moved inv rfl inv.bsp trivial inv.queue inv.complete
  | freed physAddr returned pmm here ran =>
    rw [here] at knows
    simp only [DataWorld.apData, here]
    exact data_inv_moved inv rfl inv.bsp knows inv.queue inv.complete
  | completed returned here => exact data_completed inv here (returns returned here)

end

theorem data_invariant (f : Frames m) (room : 0 < m.tensorCap) {memory : Bytes}
    {d : DataWorld m} (reached : Reachable dataStep (DataWorld.start m memory) d) :
    DataInv memory d := by
  apply data_kept_by_moves (data_inv_start memory) _ reached
  intro d core next before inv moves
  have projected := data_run_projects before
  cases core with
  | bsp =>
    by_cases booting : ∃ pc, d.world.bsp = .booting pc
    · obtain ⟨pc, here⟩ := booting
      obtain ⟨queue, incomplete⟩ := quiet_while_booting projected pc here
      have moved : bootStep d.world pc = next := by
        simp only [coreStep, bspStep, here, Outcome.moves.injEq] at moves
        exact moves
      exact data_boot inv here (parked_while_booting projected pc here) queue incomplete moved
    · apply data_bsp inv (bsp_move_cases moves)
      intro pc here
      exact booting ⟨pc, here⟩
  | ap =>
    apply data_ap inv (ap_move_cases moves)
    intro returned completing
    rcases reachable_owned f room projected with before | ⟨place, at_place⟩
    · have parked := before.ap
      rw [completing] at parked
      cases parked
    · exact (at_place.returned returned completing).1

theorem prepared_bytes {memory : Bytes} {d : DataWorld m} {tensor : TensorChunk .ready}
    (prepared : Prepared memory d tensor) {place : Nat}
    (changed : d.memory place ≠ memory place) : ∃ offset frame, m.hhdmOffset = some offset ∧
      d.world.tensorFrame = some frame ∧ offset.toNat ≤ place ∧
        FrameHolds frame.number (place - offset.toNat) := by
  obtain ⟨⟨offset, frame, mapped, allocated, added⟩, shape, filled⟩ := prepared
  have length : tensor.byteLen = TENSOR_ELEMENTS.toNat * 4 := congrArg TensorChunk.byteLen shape
  have page : TENSOR_ELEMENTS.toNat * 4 = 4096 := rfl
  have pointer : tensor.virtPtr.toNat = offset.toNat + frame.number * 4096 := by
    unfold checkedAdd at added
    split at added
    · rename_i fits
      rw [← Option.some.inj added, sum_value fits, address_value]
    · cases added
  have inside : tensor.virtPtr.toNat ≤ place ∧ place < tensor.virtPtr.toNat + 4096 := by
    by_contra outside
    apply changed
    rw [filled, length]
    apply filled_outside
    omega
  exact ⟨offset, frame, mapped, allocated, by omega, by unfold FrameHolds; omega⟩

theorem changed_prepared {memory : Bytes} {d : DataWorld m} (inv : DataInv memory d) {place : Nat}
    (changed : d.memory place ≠ memory place) : ∃ tensor, Prepared memory d tensor := by
  have knows := inv.bsp
  have touched : d.memory ≠ memory := fun same => changed (congrFun same place)
  cases here : d.world.bsp with
  | booting pc =>
    rw [here] at knows
    cases pc with
    | allocatingTensor offset => exact absurd knows.2 touched
    | preparing offset frame => exact absurd knows.2.2 touched
    | startingAp tensor => exact ⟨tensor, knows⟩
    | _ => exact absurd knows touched
  | awaitingAp tensor => exact ⟨tensor, by rw [here] at knows; exact knows⟩
  | sending tensor => exact ⟨tensor, by rw [here] at knows; exact knows⟩
  | awaitingTensor =>
    rw [here] at knows
    exact knows
  | reporting report =>
    rw [here] at knows
    exact knows.1
  | finished report =>
    rw [here] at knows
    exact knows.1
  | halted why held =>
    rw [here] at knows
    exact knows.resolve_left touched

/-- The tensor in every run of the two cores: the sum that the BSP reads is the
    element count, the AP never reports a failure, and every byte of memory that
    has changed is a byte of the allocated frame and of a usable entry. -/
theorem tensor_sum_exact (f : Frames m) (room : 0 < m.tensorCap) {memory : Bytes}
    {d : DataWorld m} (reached : Reachable dataStep (DataWorld.start m memory) d) :
    (∀ sum, d.tensorSum = some sum →
      sum = asF32 TENSOR_ELEMENTS.toNat ∧ sum.beq TENSOR_ELEMENTS.toFloat32 = true) ∧
    (∀ report, d.world.bsp = .reporting report ∨ d.world.bsp = .finished report →
      d.tensorSum ≠ none) ∧
    (∀ shown, d.verdict = some shown → shown = true) ∧
    (d.world.ap = .finished → d.verdict = some true) ∧
    ∀ place, d.memory place ≠ memory place → ∃ offset, m.hhdmOffset = some offset ∧
      d.world.tensorFrame = some f.frame ∧ offset.toNat ≤ place ∧
        FrameHolds f.frame.number (place - offset.toNat) ∧
          ∃ entry ∈ f.entries, entry.entryType = EntryType.USABLE ∧
            entry.Holds (place - offset.toNat) := by
  have inv := data_invariant f room reached
  refine ⟨?_, ?_, inv.verdict, ?_, ?_⟩
  · intro sum shown
    have exactly := inv.tensorSum sum shown
    exact ⟨exactly, by rw [exactly]; exact (equal_as_f32_iff (by decide) (by decide)).mpr rfl⟩
  · intro report here
    have knows := inv.bsp
    rcases here with here | here
    · rw [here] at knows
      exact knows.2
    · rw [here] at knows
      exact knows.2
  · intro here
    have knows := inv.ap
    rw [here] at knows
    exact knows.2
  · intro place changed
    obtain ⟨tensor, prepared⟩ := changed_prepared inv changed
    obtain ⟨offset, frame, mapped, allocated, above, inFrame⟩ := prepared_bytes prepared changed
    have same : frame = f.frame := by
      rcases reachable_owned f room (data_run_projects reached) with before | ⟨_, at_place⟩
      · rw [before.frame] at allocated
        cases allocated
      · rw [at_place.frame] at allocated
        cases allocated
        rfl
    subst same
    obtain ⟨_, entry, listed, usable, _, first, last⟩ :=
      (mem_usable_set _ _).mp f.represents.1
    exact ⟨offset, mapped, allocated, above, inFrame, entry, listed, usable,
      Nat.le_trans first inFrame.1, Nat.lt_of_lt_of_le inFrame.2 last⟩

theorem tensor_sum_exact_at_end : ∃ d : DataWorld (twoPacketMachine 2),
    d.world.ap = .finished ∧ d.verdict = some true ∧
      d.tensorSum = some (asF32 TENSOR_ELEMENTS.toNat) := by
  obtain ⟨b⟩ := two_packet_boot 2
  obtain ⟨w, reached, ⟨report, here⟩, finished⟩ :=
    end_reachable b (by decide) (by decide) (by decide) (by decide) .start
  obtain ⟨d, ran, rfl⟩ := data_run_lifts (d := DataWorld.start _ fun _ => 0) reached
  obtain ⟨exactly, summed, _, verdict, _⟩ := tensor_sum_exact b.toFrames (by decide) ran
  obtain ⟨sum, shown⟩ := Option.ne_none_iff_exists'.mp (summed report (Or.inr here))
  exact ⟨d, finished, verdict finished, by rw [shown, (exactly sum shown).1]⟩

end CellKernel
