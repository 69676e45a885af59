import CellKernel.BoundedFifo
import CellKernel.PmmRuns
import CellKernel.Runs
import CellKernel.Supervisor
import CellKernel.Tensor

/-
The two cores of crates/cell-baremetal/src/main.rs: _start on the bootstrap
processor and ap_entry on one application processor. Each queue operation,
each load or store of a shared atomic and each call of the frame allocator is
one step. Lines written to the UART, and the sum of the tensor that only they
show, are left out. A core that finds a queue full or empty, or a flag unset,
spins. A panic and every failed check of the boot end in halt. The kernel is
built in the dev profile, so arithmetic that overflows panics.
-/
namespace CellKernel
open CellCore CellFifo CellPmm CellRuns CellSupervisor CellTensor

structure SmpResponse where
  cpus : List UInt32
  bspLapicId : UInt32

/-- What the boot loader answers, the payloads of the send loop, and the queue
    capacities. The number of payloads is PACKET_COUNT, a usize. -/
structure Machine where
  memoryMap : Option (List Entry)
  hhdmOffset : Option UInt64
  smp : Option SmpResponse
  batch : List RawPayload
  countable : batch.length < 2 ^ 64
  interCap : Nat
  completionCap : Nat
  tensorCap : Nat

def TENSOR_ELEMENTS : UInt64 := 1024

inductive Core where
  | bsp
  | ap
  deriving DecidableEq

inductive BootPc where
  | initializing
  | probing
  | returningProbe (probe : PhysicalFrame)
  | requestingHhdm
  | allocatingTensor (offset : UInt64)
  | preparing (offset : UInt64) (frame : PhysicalFrame)
  | startingAp (tensor : TensorChunk .ready)

inductive Failure where
  | noMemoryMap
  | probeFailed
  | probeNotReturned
  | noHhdm
  | noTensorFrame
  | addressOverflow
  | noSmp
  | noProcessor
  | bootPanic
  | tensorQueueFull
  | countOverflow
  deriving DecidableEq

/-- The supervisor and the counters of the report loop; reports is a usize,
    the other two are i32. -/
structure Report (count : Nat) where
  supervisor : Supervisor count
  reports : Nat
  succeeded : Nat
  failed : Nat

def Report.start (count : Nat) : Report count := ⟨Supervisor.new, 0, 0, 0⟩

/-- One turn of the report loop; none is the panic of an i32 count. -/
def Report.record {count : Nat} (r : Report count) : WorkResult → Option (Report count)
  | .Completed _ =>
      if r.succeeded + 1 < 2 ^ 31 then
        some { r with succeeded := r.succeeded + 1, reports := r.reports + 1 }
      else none
  | .Failed context nodeId reason =>
      if r.failed + 1 < 2 ^ 31 then
        some { r with
          failed := r.failed + 1
          supervisor := (r.supervisor.observe (.Failed context nodeId reason)).2
          reports := r.reports + 1 }
      else none

/-- Whether the last line of _start says that the batch completed. -/
def Report.batchCompleted {count : Nat} (r : Report count) : Bool :=
  r.succeeded == 9 && r.failed == 1 && r.supervisor.failureCount == 1

/-- held is the physical address of a tensor frame that the core still has. -/
inductive BspPc (count : Nat) where
  | booting (pc : BootPc)
  | awaitingAp (tensor : TensorChunk .ready)
  | sending (tensor : TensorChunk .ready)
  | awaitingTensor
  | reporting (report : Report count)
  | finished (report : Report count)
  | halted (why : Failure) (held : Option UInt64)

inductive ApPc where
  | parked
  | starting
  | working
  | returning (raw : RawPayload) (result : WorkResult)
  | counting
  | pollingTensor
  | reducing (tensor : TensorChunk .ready)
  | freeing (physAddr : UInt64)
  | completing (returned : Bool)
  | finished
  | panicked (held : UInt64)

/-- unsent is what is left of the send loop. The last three fields are not in
    the source: the results the BSP has popped, the frame it allocated for the
    tensor, and the calls of the frame allocator with their results. -/
structure World (m : Machine) where
  interCore : Fifo RawPayload m.interCap
  completion : Fifo WorkResult m.completionCap
  tensors : Fifo (TensorChunk .ready) m.tensorCap
  apReady : Bool
  apProcessed : Nat
  tensorComplete : Bool
  pmm : BitmapPmm
  bsp : BspPc m.batch.length
  ap : ApPc
  unsent : List RawPayload
  reported : List WorkResult
  tensorFrame : Option PhysicalFrame
  pmmCalls : List (Core × PmmCall × PmmResult)

variable {m : Machine}

def World.start (m : Machine) : World m where
  interCore := Fifo.empty
  completion := Fifo.empty
  tensors := Fifo.empty
  apReady := false
  apProcessed := 0
  tensorComplete := false
  pmm := BitmapPmm.new
  bsp := .booting .initializing
  ap := .parked
  unsent := m.batch
  reported := []
  tensorFrame := none
  pmmCalls := []

inductive Outcome (m : Machine) where
  | moves (next : World m)
  | spins
  | stops

def World.halt (w : World m) (why : Failure) (held : Option UInt64) : World m :=
  { w with bsp := .halted why held }

def World.called (w : World m) (core : Core) (pmm : BitmapPmm) (call : PmmCall)
    (result : PmmResult) : World m :=
  { w with pmm := pmm, pmmCalls := w.pmmCalls ++ [(core, call, result)] }

def World.boot (w : World m) (pc : BootPc) : World m := { w with bsp := .booting pc }

def initializePmm (w : World m) : World m :=
  match m.memoryMap with
  | none => w.halt .noMemoryMap none
  | some entries =>
      match BitmapPmm.initialize w.pmm entries with
      | .error _ => w.halt .bootPanic none
      | .ok (stats, pmm) =>
          (w.called .bsp pmm (.initializeWith entries) (.initialized stats)).boot .probing

def probeFrame (w : World m) : World m :=
  match w.pmm.allocate with
  | .error _ => w.halt .bootPanic none
  | .ok (none, pmm) => (w.called .bsp pmm .allocate (.allocated none)).halt .probeFailed none
  | .ok (some probe, pmm) =>
      (w.called .bsp pmm .allocate (.allocated (some probe))).boot (.returningProbe probe)

def returnProbe (w : World m) (probe : PhysicalFrame) : World m :=
  match w.pmm.free probe with
  | .error _ => w.halt .bootPanic none
  | .ok (false, pmm) =>
      (w.called .bsp pmm (.free probe) (.freed false)).halt .probeNotReturned none
  | .ok (true, pmm) => (w.called .bsp pmm (.free probe) (.freed true)).boot .requestingHhdm

def requestHhdm (w : World m) : World m :=
  match m.hhdmOffset with
  | none => w.halt .noHhdm none
  | some offset => w.boot (.allocatingTensor offset)

def allocateTensor (w : World m) (offset : UInt64) : World m :=
  match w.pmm.allocate with
  | .error _ => w.halt .bootPanic none
  | .ok (none, pmm) => (w.called .bsp pmm .allocate (.allocated none)).halt .noTensorFrame none
  | .ok (some frame, pmm) =>
      { (w.called .bsp pmm .allocate (.allocated (some frame))).boot (.preparing offset frame) with
        tensorFrame := some frame }

def frozenTensor (frame : PhysicalFrame) (virtual : UInt64) :
    Except TensorPanic (TensorChunk .ready) := do
  let tensor ← TensorChunk.new .dev ⟨100, 100, 0⟩ frame.address virtual
    (TensorShape.new1d TENSOR_ELEMENTS) .F32
  let _ ← tensor.asMutSlice
  return tensor.freeze

def prepareTensor (w : World m) (offset : UInt64) (frame : PhysicalFrame) : World m :=
  match checkedAdd offset frame.address with
  | none => w.halt .addressOverflow (some frame.address)
  | some virtual =>
      match frozenTensor frame virtual with
      | .error _ => w.halt .bootPanic (some frame.address)
      | .ok tensor => w.boot (.startingAp tensor)

/-- The first processor that is not the BSP gets ap_entry as its address. -/
def startAp (w : World m) (tensor : TensorChunk .ready) : World m :=
  match m.smp with
  | none => w.halt .noSmp (some tensor.physAddr)
  | some response =>
      if response.cpus.any fun lapicId => lapicId != response.bspLapicId then
        { w with bsp := .awaitingAp tensor, ap := .starting }
      else w.halt .noProcessor (some tensor.physAddr)

def bootStep (w : World m) : BootPc → World m
  | .initializing => initializePmm w
  | .probing => probeFrame w
  | .returningProbe probe => returnProbe w probe
  | .requestingHhdm => requestHhdm w
  | .allocatingTensor offset => allocateTensor w offset
  | .preparing offset frame => prepareTensor w offset frame
  | .startingAp tensor => startAp w tensor

def bspStep (w : World m) : Outcome m :=
  match w.bsp with
  | .booting pc => .moves (bootStep w pc)
  | .awaitingAp tensor =>
      if w.apReady then .moves { w with bsp := .sending tensor } else .spins
  | .sending tensor =>
      match w.unsent with
      | raw :: rest =>
          match w.interCore.push raw with
          | none => .spins
          | some interCore => .moves { w with interCore := interCore, unsent := rest }
      | [] =>
          match w.tensors.push tensor with
          | none => .moves (w.halt .tensorQueueFull none)
          | some tensors => .moves { w with tensors := tensors, bsp := .awaitingTensor }
  | .awaitingTensor =>
      if w.tensorComplete then .moves { w with bsp := .reporting (Report.start _) } else .spins
  | .reporting report =>
      if report.reports < m.batch.length then
        match w.completion.pop with
        | none => .spins
        | some (result, completion) =>
            match report.record result with
            | none => .moves { w with
                completion := completion
                reported := w.reported ++ [result]
                bsp := .halted .countOverflow none }
            | some report => .moves { w with
                completion := completion
                reported := w.reported ++ [result]
                bsp := .reporting report }
      else .moves { w with bsp := .finished report }
  | .finished _ => .stops
  | .halted _ _ => .stops

def workResult (raw : RawPayload) : WorkResult :=
  if raw.isEmpty then .Failed raw.context 1 "Corrupted payload in AP1"
  else .Completed (raw.validate ⟨0xCE112021⟩).context

/-- AP_PROCESSED is written by this core only, so its load and the pop after it
    are one step. -/
def apStep (w : World m) : Outcome m :=
  match w.ap with
  | .parked => .stops
  | .starting => .moves { w with apReady := true, ap := .working }
  | .working =>
      if w.apProcessed < m.batch.length then
        match w.interCore.pop with
        | none => .spins
        | some (raw, interCore) =>
            .moves { w with interCore := interCore, ap := .returning raw (workResult raw) }
      else .moves { w with ap := .pollingTensor }
  | .returning _ result =>
      match w.completion.push result with
      | none => .spins
      | some completion => .moves { w with completion := completion, ap := .counting }
  | .counting =>
      .moves { w with apProcessed := (w.apProcessed + 1) % 2 ^ 64, ap := .working }
  | .pollingTensor =>
      match w.tensors.pop with
      | none => .spins
      | some (tensor, tensors) => .moves { w with tensors := tensors, ap := .reducing tensor }
  | .reducing tensor =>
      match tensor.asSlice 4 4 with
      | .error _ => .moves { w with ap := .panicked tensor.physAddr }
      | .ok _ => .moves { w with ap := .freeing tensor.deconstruct.2 }
  | .freeing physAddr =>
      match w.pmm.free (PhysicalFrame.fromAddress physAddr) with
      | .error _ => .moves { w with ap := .panicked physAddr }
      | .ok (returned, pmm) =>
          .moves { w.called .ap pmm (.free (PhysicalFrame.fromAddress physAddr))
            (.freed returned) with ap := .completing returned }
  | .completing _ => .moves { w with tensorComplete := true, ap := .finished }
  | .finished => .stops
  | .panicked _ => .stops

def coreStep (w : World m) : Core → Outcome m
  | .bsp => bspStep w
  | .ap => apStep w

/-- A spinning core takes a step that changes nothing. -/
def step (w : World m) (core : Core) : Option (World m) :=
  match coreStep w core with
  | .moves next => some next
  | .spins => some w
  | .stops => none

theorem step_cases {w next : World m} {core : Core} (taken : step w core = some next) :
    coreStep w core = .moves next ∨ (coreStep w core = .spins ∧ next = w) := by
  unfold step at taken
  split at taken
  · rename_i moved ran
    cases taken
    exact Or.inl ran
  · rename_i ran
    cases taken
    exact Or.inr ⟨ran, rfl⟩
  · cases taken

theorem step_of_moves {w next : World m} {core : Core} (moves : coreStep w core = .moves next) :
    step w core = some next := by
  unfold step
  rw [moves]

/-- The induction rule for the two cores: a spin changes nothing, so only moves
    have to keep an invariant. -/
theorem kept_by_moves {holds : World m → Prop} (base : holds (World.start m))
    (keep : ∀ w core next, Reachable step (World.start m) w → holds w →
      coreStep w core = .moves next → holds next) {w : World m}
    (reached : Reachable step (World.start m) w) : holds w := by
  apply holds_throughout base _ reached
  intro s core t before held _ taken
  cases step_cases taken with
  | inl moves => exact keep s core t before held moves
  | inr spins =>
    rw [spins.2]
    exact held

def BootPc.left : BootPc → Nat
  | .initializing => 7
  | .probing => 6
  | .returningProbe _ => 5
  | .requestingHhdm => 4
  | .allocatingTensor _ => 3
  | .preparing _ _ => 2
  | .startingAp _ => 1

def Failure.duringBoot : Failure → Bool
  | .tensorQueueFull => false
  | .countOverflow => false
  | _ => true

/-- The part of the state that no step of the boot touches. -/
structure SameTraffic (w next : World m) : Prop where
  interCore : next.interCore = w.interCore
  completion : next.completion = w.completion
  tensors : next.tensors = w.tensors
  apReady : next.apReady = w.apReady
  apProcessed : next.apProcessed = w.apProcessed
  tensorComplete : next.tensorComplete = w.tensorComplete
  unsent : next.unsent = w.unsent
  reported : next.reported = w.reported

/-- The moves of the BSP, with the checks that allow them. -/
inductive BspMove (w : World m) : World m → Prop where
  | booted (pc later : BootPc) (next : World m) (here : w.bsp = .booting pc)
      (same : SameTraffic w next) (ap : next.ap = w.ap) (there : next.bsp = .booting later)
      (nearer : later.left < pc.left) : BspMove w next
  | bootFailed (pc : BootPc) (why : Failure) (held : Option UInt64) (next : World m)
      (here : w.bsp = .booting pc) (same : SameTraffic w next) (ap : next.ap = w.ap)
      (there : next.bsp = .halted why held) (during : why.duringBoot = true) : BspMove w next
  | apStarted (tensor : TensorChunk .ready) (here : w.bsp = .booting (.startingAp tensor)) :
      BspMove w { w with bsp := .awaitingAp tensor, ap := .starting }
  | apSeen (tensor : TensorChunk .ready) (here : w.bsp = .awaitingAp tensor)
      (ready : w.apReady = true) : BspMove w { w with bsp := .sending tensor }
  | sent (tensor : TensorChunk .ready) (raw : RawPayload) (rest : List RawPayload)
      (interCore : Fifo RawPayload m.interCap) (here : w.bsp = .sending tensor)
      (unsent : w.unsent = raw :: rest) (pushed : w.interCore.push raw = some interCore) :
      BspMove w { w with interCore := interCore, unsent := rest }
  | tensorRefused (tensor : TensorChunk .ready) (here : w.bsp = .sending tensor)
      (unsent : w.unsent = []) (full : w.tensors.push tensor = none) :
      BspMove w (w.halt .tensorQueueFull none)
  | tensorSent (tensor : TensorChunk .ready) (tensors : Fifo (TensorChunk .ready) m.tensorCap)
      (here : w.bsp = .sending tensor) (unsent : w.unsent = [])
      (pushed : w.tensors.push tensor = some tensors) :
      BspMove w { w with tensors := tensors, bsp := .awaitingTensor }
  | tensorSeen (here : w.bsp = .awaitingTensor) (complete : w.tensorComplete = true) :
      BspMove w { w with bsp := .reporting (Report.start _) }
  | reported (report later : Report m.batch.length) (result : WorkResult)
      (completion : Fifo WorkResult m.completionCap) (here : w.bsp = .reporting report)
      (more : report.reports < m.batch.length)
      (popped : w.completion.pop = some (result, completion))
      (recorded : report.record result = some later) :
      BspMove w { w with
        completion := completion, reported := w.reported ++ [result], bsp := .reporting later }
  | countOverflowed (report : Report m.batch.length) (result : WorkResult)
      (completion : Fifo WorkResult m.completionCap) (here : w.bsp = .reporting report)
      (more : report.reports < m.batch.length)
      (popped : w.completion.pop = some (result, completion))
      (overflow : report.record result = none) :
      BspMove w { w with
        completion := completion
        reported := w.reported ++ [result]
        bsp := .halted .countOverflow none }
  | finished (report : Report m.batch.length) (here : w.bsp = .reporting report)
      (all : ¬ report.reports < m.batch.length) :
      BspMove w { w with bsp := .finished report }

inductive ApMove (w : World m) : World m → Prop where
  | started (here : w.ap = .starting) : ApMove w { w with apReady := true, ap := .working }
  | taken (raw : RawPayload) (interCore : Fifo RawPayload m.interCap) (here : w.ap = .working)
      (more : w.apProcessed < m.batch.length)
      (popped : w.interCore.pop = some (raw, interCore)) :
      ApMove w { w with interCore := interCore, ap := .returning raw (workResult raw) }
  | batchDone (here : w.ap = .working) (all : ¬ w.apProcessed < m.batch.length) :
      ApMove w { w with ap := .pollingTensor }
  | returned (raw : RawPayload) (result : WorkResult)
      (completion : Fifo WorkResult m.completionCap) (here : w.ap = .returning raw result)
      (pushed : w.completion.push result = some completion) :
      ApMove w { w with completion := completion, ap := .counting }
  | counted (here : w.ap = .counting) :
      ApMove w { w with apProcessed := (w.apProcessed + 1) % 2 ^ 64, ap := .working }
  | tensorTaken (tensor : TensorChunk .ready) (tensors : Fifo (TensorChunk .ready) m.tensorCap)
      (here : w.ap = .pollingTensor) (popped : w.tensors.pop = some (tensor, tensors)) :
      ApMove w { w with tensors := tensors, ap := .reducing tensor }
  | reductionPanicked (tensor : TensorChunk .ready) (panic : TensorPanic)
      (here : w.ap = .reducing tensor) (refused : tensor.asSlice 4 4 = .error panic) :
      ApMove w { w with ap := .panicked tensor.physAddr }
  | reduced (tensor : TensorChunk .ready) (count : Nat) (here : w.ap = .reducing tensor)
      (read : tensor.asSlice 4 4 = .ok count) :
      ApMove w { w with ap := .freeing tensor.physAddr }
  | freePanicked (physAddr : UInt64) (fault : PmmFault) (here : w.ap = .freeing physAddr)
      (refused : w.pmm.free (PhysicalFrame.fromAddress physAddr) = .error fault) :
      ApMove w { w with ap := .panicked physAddr }
  | freed (physAddr : UInt64) (returned : Bool) (pmm : BitmapPmm)
      (here : w.ap = .freeing physAddr)
      (ran : w.pmm.free (PhysicalFrame.fromAddress physAddr) = .ok (returned, pmm)) :
      ApMove w { w.called .ap pmm (.free (PhysicalFrame.fromAddress physAddr))
        (.freed returned) with ap := .completing returned }
  | completed (returned : Bool) (here : w.ap = .completing returned) :
      ApMove w { w with tensorComplete := true, ap := .finished }

section
variable {w : World m} {pc : BootPc} (here : w.bsp = .booting pc)
include here

theorem halt_move (why : Failure) (held : Option UInt64) (during : why.duringBoot = true) :
    BspMove w (w.halt why held) :=
  .bootFailed pc why held _ here ⟨rfl, rfl, rfl, rfl, rfl, rfl, rfl, rfl⟩ rfl rfl during

theorem called_halt_move (core : Core) (pmm : BitmapPmm) (call : PmmCall) (result : PmmResult)
    (why : Failure) (held : Option UInt64) (during : why.duringBoot = true) :
    BspMove w ((w.called core pmm call result).halt why held) :=
  .bootFailed pc why held _ here ⟨rfl, rfl, rfl, rfl, rfl, rfl, rfl, rfl⟩ rfl rfl during

theorem boot_move (later : BootPc) (nearer : later.left < pc.left) :
    BspMove w (w.boot later) :=
  .booted pc later _ here ⟨rfl, rfl, rfl, rfl, rfl, rfl, rfl, rfl⟩ rfl rfl nearer

theorem called_boot_move (core : Core) (pmm : BitmapPmm) (call : PmmCall) (result : PmmResult)
    (later : BootPc) (nearer : later.left < pc.left) :
    BspMove w ((w.called core pmm call result).boot later) :=
  .booted pc later _ here ⟨rfl, rfl, rfl, rfl, rfl, rfl, rfl, rfl⟩ rfl rfl nearer

theorem boot_step_move : BspMove w (bootStep w pc) := by
  cases pc with
  | initializing =>
    simp only [bootStep, initializePmm]
    split
    · exact halt_move here _ _ rfl
    · split
      · exact halt_move here _ _ rfl
      · exact called_boot_move here _ _ _ _ _ (by simp [BootPc.left])
  | probing =>
    simp only [bootStep, probeFrame]
    split
    · exact halt_move here _ _ rfl
    · exact called_halt_move here _ _ _ _ _ _ rfl
    · exact called_boot_move here _ _ _ _ _ (by simp [BootPc.left])
  | returningProbe probe =>
    simp only [bootStep, returnProbe]
    split
    · exact halt_move here _ _ rfl
    · exact called_halt_move here _ _ _ _ _ _ rfl
    · exact called_boot_move here _ _ _ _ _ (by simp [BootPc.left])
  | requestingHhdm =>
    simp only [bootStep, requestHhdm]
    split
    · exact halt_move here _ _ rfl
    · exact boot_move here _ (by simp [BootPc.left])
  | allocatingTensor offset =>
    simp only [bootStep, allocateTensor]
    split
    · exact halt_move here _ _ rfl
    · exact called_halt_move here _ _ _ _ _ _ rfl
    · exact .booted _ _ _ here ⟨rfl, rfl, rfl, rfl, rfl, rfl, rfl, rfl⟩ rfl rfl
        (by simp [BootPc.left])
  | preparing offset frame =>
    simp only [bootStep, prepareTensor]
    split
    · exact halt_move here _ _ rfl
    · split
      · exact halt_move here _ _ rfl
      · exact boot_move here _ (by simp [BootPc.left])
  | startingAp tensor =>
    simp only [bootStep, startAp]
    split
    · exact halt_move here _ _ rfl
    · split
      · exact .apStarted tensor here
      · exact halt_move here _ _ rfl

end

theorem bsp_move_cases {w next : World m} (moves : bspStep w = .moves next) :
    BspMove w next := by
  unfold bspStep at moves
  split at moves
  · rename_i pc here
    cases moves
    exact boot_step_move here
  · rename_i tensor here
    split at moves
    · rename_i ready
      cases moves
      exact .apSeen tensor here ready
    · cases moves
  · rename_i tensor here
    split at moves
    · rename_i raw rest unsent
      split at moves
      · cases moves
      · rename_i interCore pushed
        cases moves
        exact .sent tensor raw rest interCore here unsent pushed
    · rename_i unsent
      split at moves
      · rename_i full
        cases moves
        exact .tensorRefused tensor here unsent full
      · rename_i tensors pushed
        cases moves
        exact .tensorSent tensor tensors here unsent pushed
  · rename_i here
    split at moves
    · rename_i complete
      cases moves
      exact .tensorSeen here complete
    · cases moves
  · rename_i report here
    split at moves
    · rename_i more
      split at moves
      · cases moves
      · rename_i result completion popped
        split at moves
        · rename_i overflow
          cases moves
          exact .countOverflowed report result completion here more popped overflow
        · rename_i later recorded
          cases moves
          exact .reported report later result completion here more popped recorded
    · rename_i all
      cases moves
      exact .finished report here all
  · cases moves
  · cases moves

theorem ap_move_cases {w next : World m} (moves : apStep w = .moves next) : ApMove w next := by
  unfold apStep at moves
  split at moves
  · cases moves
  · rename_i here
    cases moves
    exact .started here
  · rename_i here
    split at moves
    · rename_i more
      split at moves
      · cases moves
      · rename_i raw interCore popped
        cases moves
        exact .taken raw interCore here more popped
    · rename_i all
      cases moves
      exact .batchDone here all
  · rename_i raw result here
    split at moves
    · cases moves
    · rename_i completion pushed
      cases moves
      exact .returned raw result completion here pushed
  · rename_i here
    cases moves
    exact .counted here
  · rename_i here
    split at moves
    · cases moves
    · rename_i tensor tensors popped
      cases moves
      exact .tensorTaken tensor tensors here popped
  · rename_i tensor here
    split at moves
    · rename_i panic refused
      cases moves
      exact .reductionPanicked tensor panic here refused
    · rename_i count read
      cases moves
      exact .reduced tensor count here read
  · rename_i physAddr here
    split at moves
    · rename_i fault refused
      cases moves
      exact .freePanicked physAddr fault here refused
    · rename_i returned pmm ran
      cases moves
      exact .freed physAddr returned pmm here ran
  · rename_i returned here
    cases moves
    exact .completed returned here
  · cases moves
  · cases moves

theorem core_move_cases {w next : World m} {core : Core}
    (moves : coreStep w core = .moves next) : BspMove w next ∨ ApMove w next := by
  cases core with
  | bsp => exact Or.inl (bsp_move_cases moves)
  | ap => exact Or.inr (ap_move_cases moves)

theorem parked_while_booting {w : World m} (reached : Reachable step (World.start m) w) :
    ∀ pc, w.bsp = .booting pc → w.ap = .parked := by
  apply kept_by_moves _ _ reached
  · intro pc _
    rfl
  · intro w core next _ parked moves
    cases core_move_cases moves with
    | inl move =>
      cases move with
      | booted pc later next here same ap there nearer =>
        intro _ _
        rw [ap]
        exact parked pc here
      | bootFailed pc why held next here same ap there during =>
        intro later booting
        rw [there] at booting
        cases booting
      | sent => exact parked
      | _ => intro later booting; cases booting
    | inr move =>
      cases move <;> (intro pc booting; have stuck := parked pc booting; simp_all)

end CellKernel
