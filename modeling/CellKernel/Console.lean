import CellKernel.KernelReduction
import CellKernel.SerialCalls

/-
The two cores with the lines that they write to the UART. A core that has a line
to write calls serial_write and goes on when the call has returned, so the other
core may take steps between any two bytes. How core::fmt divides a line into
pieces is left open by what is proved; Display for f32 and the text of a panic
are parameters.
-/
namespace CellKernel
open CellCore CellFifo CellPmm CellRuns CellSerial CellSupervisor CellTensor

variable {m : Machine}

def text (s : String) : List UInt8 := s.toList.flatMap String.utf8EncodeChar

/-- Display of an unsigned integer, and LowerHex. -/
def decimal (n : Nat) : List UInt8 := text (toString n)

def lowerHex (n : Nat) : List UInt8 := text (String.ofList (Nat.toDigits 16 n))

structure Formats where
  f32 : Float32 → List UInt8
  panicInfo : List UInt8

namespace Lines

def active : Message := [text "[CELL KERNEL] Dataflow pipeline active\n"]

def stats (s : PmmStats) : Message :=
  [text "[CELL PMM] usable=", decimal s.usableFrames, text " free=", decimal s.freeFrames,
    text " max_frame=", decimal s.maxFrame, text "\n"]

def allocated (frame : PhysicalFrame) : Message :=
  [text "[CELL PMM] allocated frame=", decimal frame.number, text " physical=0x",
    lowerHex frame.address.toNat, text "\n"]

def returned : Message := [text "[CELL PMM] frame returned to bitmap\n"]

def prepared (frame : PhysicalFrame) : Message :=
  [text "[CELL TENSOR] BSP prepared ", decimal TENSOR_ELEMENTS.toNat,
    text " F32 elements phys=0x", lowerHex frame.address.toNat, text "\n"]

def pipelineOnline : Message := [text "[CELL SMP] BSP -> AP pipeline online\n"]

def feedbackActive : Message := [text "[CELL SMP] Bidirectional feedback loop active\n"]

def reduction (fmt : Formats) (sum : Float32) : Message :=
  [text "[CELL TENSOR] AP1 zero-copy reduction sum=", fmt.f32 sum, text " expected=",
    decimal TENSOR_ELEMENTS.toNat, text "\n"]

def report : WorkResult → Message
  | .Completed context =>
      [text "[SUPERVISOR] Trace ", decimal context.traceId.toNat, text " OK\n"]
  | .Failed context nodeId reason =>
      [text "[SUPERVISOR WARN] Fault captured on Node ", decimal nodeId.toNat, text "! Trace ",
        decimal context.traceId.toNat, text " failed: ", text reason, text "\n"]

def batchCompleted : Message :=
  [text "[CELL KERNEL] Batch completed: 9 succeeded, 1 isolated failure. Zero crash.\n"]

def batchFailed (succeeded failed recorded : Nat) : Message :=
  [text "[CELL KERNEL] Batch invariant failed: ok=", decimal succeeded, text " failed=",
    decimal failed, text " recorded=", decimal recorded, text "\n"]

def last {count : Nat} (r : Report count) : Message :=
  if r.batchCompleted then batchCompleted
  else batchFailed r.succeeded r.failed r.supervisor.failureCount

def apOnline : Message := [text "[CELL SMP] AP1 online\n"]

def reduced (context : TraceContext) (count : Nat) (physAddr : UInt64) : Message :=
  [text "[CELL TENSOR] AP1 trace=", decimal context.traceId.toNat, text " reduced ",
    decimal count, text " elements and freed phys=0x", lowerHex physAddr.toNat, text "\n"]

def reductionFailed : Message := [text "[CELL TENSOR] reduction or frame release failed\n"]

def panicked (fmt : Formats) : Message :=
  [text "[CELL KERNEL] panic: ", fmt.panicInfo, text "\n"]

end Lines

open Lines

def bootLines (fmt : Formats) (w : World m) : BootPc → List Message
  | .initializing =>
      match m.memoryMap with
      | none => [[text "[CELL PMM] no Limine memory map response\n"]]
      | some entries =>
          match BitmapPmm.initialize w.pmm entries with
          | .error _ => [panicked fmt]
          | .ok (s, _) => [stats s]
  | .probing =>
      match w.pmm.allocate with
      | .error _ => [panicked fmt]
      | .ok (none, _) => [[text "[CELL PMM] allocation probe failed\n"]]
      | .ok (some probe, _) => [allocated probe]
  | .returningProbe probe =>
      match w.pmm.free probe with
      | .error _ => [panicked fmt]
      | .ok (false, _) => [[text "[CELL PMM] deallocation probe failed\n"]]
      | .ok (true, _) => [returned]
  | .requestingHhdm =>
      match m.hhdmOffset with
      | none => [[text "[CELL PMM] no Limine HHDM response\n"]]
      | some _ => []
  | .allocatingTensor _ =>
      match w.pmm.allocate with
      | .error _ => [panicked fmt]
      | .ok _ => []
  | .preparing offset frame =>
      match checkedAdd offset frame.address with
      | none => []
      | some virtual =>
          match frozenTensor frame virtual with
          | .error _ => [panicked fmt]
          | .ok _ => [prepared frame]
  | .startingAp _ =>
      match m.smp with
      | none => [[text "[CELL SMP] no Limine SMP response\n"]]
      | some response =>
          if response.cpus.any fun lapicId => lapicId != response.bspLapicId then []
          else [[text "[CELL SMP] no application processor found\n"]]

def bspLines (fmt : Formats) (d : DataWorld m) : List Message :=
  match d.world.bsp with
  | .booting pc => bootLines fmt d.world pc
  | .awaitingAp _ => [pipelineOnline, feedbackActive]
  | .sending tensor =>
      match d.world.unsent with
      | _ :: _ => []
      | [] =>
          match d.world.tensors.push tensor with
          | none => [[text "[CELL TENSOR] tensor queue unexpectedly full\n"]]
          | some _ => []
  | .awaitingTensor => [reduction fmt (fromSumBits d.sumBits)]
  | .reporting r =>
      if r.reports < m.batch.length then
        match d.world.completion.pop with
        | none => []
        | some (result, _) =>
            match r.record result with
            | none => [panicked fmt]
            | some _ => [report result]
      else [last r]
  | _ => []

/-- The lines that the AP writes after its step; context is that of the tensor. -/
def apLines (fmt : Formats) (d : DataWorld m) (context : TraceContext) : List Message :=
  match d.world.ap with
  | .starting => [apOnline]
  | .reducing tensor =>
      match tensor.asSlice 4 4 with
      | .error _ => [panicked fmt]
      | .ok _ => []
  | .freeing physAddr =>
      match d.world.pmm.free (PhysicalFrame.fromAddress physAddr) with
      | .error _ => [panicked fmt]
      | .ok (freed, _) =>
          match d.sum with
          | some (sum, count) =>
              if freed && sum.beq TENSOR_ELEMENTS.toFloat32 then
                [reduced context count physAddr]
              else [reductionFailed]
          | none => [reductionFailed]
  | _ => []

/-- context is the local of ap_entry that the tensor is deconstructed into. -/
structure ConsoleWorld (m : Machine) where
  cores : DataWorld m
  context : TraceContext
  serial : SerialWorld Core

/-- The first line of _start comes before its first step. -/
def ConsoleWorld.start (m : Machine) (bytes : Bytes) : ConsoleWorld m where
  cores := DataWorld.start m bytes
  context := ⟨0, 0, 0⟩
  serial := .start fun
    | .bsp => [active]
    | .ap => []

def linesOf (fmt : Formats) (c : ConsoleWorld m) : Core → List Message
  | .bsp => bspLines fmt c.cores
  | .ap => apLines fmt c.cores c.context

def contextAfter (c : ConsoleWorld m) : Core → TraceContext
  | .bsp => c.context
  | .ap =>
      match c.cores.world.ap with
      | .reducing tensor => tensor.deconstruct.1
      | _ => c.context

def ConsoleWorld.idle (c : ConsoleWorld m) (core : Core) : Bool :=
  c.serial.pc core = .returned ∧ c.serial.pending core = []

inductive ConsoleAction where
  | run (core : Core)
  | serial (action : CellSerial.Action Core)

/-- A step of this core that the UART does not hold up. -/
def ConsoleAction.turn (core : Core) : ConsoleAction → Prop
  | .run other => other = core
  | .serial action => action = ⟨core, true⟩

def consoleStep (fmt : Formats) (c : ConsoleWorld m) : ConsoleAction → Option (ConsoleWorld m)
  | .run core =>
      if c.idle core then
        match coreStep c.cores.world core with
        | .moves next =>
            some ⟨c.cores.after next core, contextAfter c core,
              c.serial.issue core (linesOf fmt c core)⟩
        | .spins => some c
        | .stops => none
      else none
  | .serial action =>
      (CellSerial.step c.serial action).map fun serial => { c with serial := serial }

end CellKernel
