import CellKernel.KernelReduction
import CellKernel.WeakQueueReplies

/-
The two cores over memory with release and acquire atomics: the counters of the
three queues, AP_READY, AP_PROCESSED, TENSOR_COMPLETE and TENSOR_SUM_BITS. One
access to memory is one step, and a load may return an old message. Starting
the AP orders nothing: it knows of no message before its first load.
-/
namespace CellKernel
open CellCore CellFifo CellInterleaving CellPmm CellRuns CellTensor CellWeak ReleaseAcquire

inductive QueueName where
  | interCore
  | completion
  | tensors
  deriving DecidableEq

inductive Flag where
  | apReady
  | apProcessed
  | tensorComplete
  | tensorSumBits
  deriving DecidableEq

inductive Atomic where
  | head (q : QueueName)
  | tail (q : QueueName)
  | flag (f : Flag)
  deriving DecidableEq

/-- What the cores access besides: the slots of the queues, the frame allocator
    and the frame of the tensor. -/
inductive Shared where
  | slot (q : QueueName) (i : Nat)
  | pmm
  | tensor
  deriving DecidableEq

variable {m : Machine}

abbrev QueueName.Item : QueueName → Type
  | .interCore => RawPayload
  | .completion => WorkResult
  | .tensors => TensorChunk .ready

abbrev QueueName.cap (m : Machine) : QueueName → Nat
  | .interCore => m.interCap
  | .completion => m.completionCap
  | .tensors => m.tensorCap

abbrev Queues (m : Machine) := (q : QueueName) → Ring Core Atomic q.Item (q.cap m)

def QueueName.producer : QueueName → Core
  | .interCore => .bsp
  | .completion => .ap
  | .tensors => .bsp

def QueueName.consumer : QueueName → Core
  | .interCore => .ap
  | .completion => .bsp
  | .tensors => .ap

def QueueName.place (q : QueueName) : CellWeak.Place Core Atomic Shared where
  head := .head q
  tail := .tail q
  slot := .slot q
  producer := q.producer
  consumer := q.consumer
  counters_apart := by simp
  slots_apart := by
    intro i j same
    cases same
    rfl

/-- The state without what the cores share through atomics. -/
def World.still (w : World m) : World m :=
  { w with
    interCore := Fifo.empty
    completion := Fifo.empty
    tensors := Fifo.empty
    apReady := false
    apProcessed := 0
    tensorComplete := false }

def DataWorld.still (d : DataWorld m) : DataWorld m := { d with world := d.world.still }

/-- The queues and flags of cores stay as they start; sumBits is the local of
    the AP. seen says that the BSP has left the loop on TENSOR_COMPLETE, polling
    that the AP has found AP_PROCESSED too small, and stored that it has stored
    TENSOR_SUM_BITS. -/
structure WeakKernel (m : Machine) where
  memory : Memory Core Atomic Shared UInt64
  queues : Queues m
  cores : DataWorld m
  seen : Bool
  polling : Bool
  stored : Bool

def WeakKernel.start (m : Machine) (bytes : Bytes) : WeakKernel m where
  memory := Memory.start fun _ => 0
  queues _ := Ring.new
  cores := DataWorld.start m bytes
  seen := false
  polling := false
  stored := false

def World.pushing (w : World m) : (q : QueueName) → Option q.Item
  | .interCore =>
      match w.bsp with
      | .sending _ => w.unsent.head?
      | _ => none
  | .completion =>
      match w.ap with
      | .returning _ result => some result
      | _ => none
  | .tensors =>
      match w.bsp, w.unsent with
      | .sending tensor, [] => some tensor
      | _, _ => none

def World.popping (w : World m) (polling : Bool) : QueueName → Bool
  | .interCore =>
      match w.ap with
      | .working => polling
      | _ => false
  | .completion =>
      match w.bsp with
      | .reporting report => report.reports < m.batch.length
      | _ => false
  | .tensors =>
      match w.ap with
      | .pollingTensor => true
      | _ => false

def World.pushed (w : World m) : QueueName → PushReply → World m
  | .interCore, .accepted => { w with unsent := w.unsent.tail }
  | .completion, .accepted => { w with ap := .counting }
  | .tensors, .accepted => { w with bsp := .awaitingTensor }
  | .tensors, .refused => w.halt .tensorQueueFull none
  | _, _ => w

def World.recorded (w : World m) (result : WorkResult) : World m :=
  match w.bsp with
  | .reporting report =>
      match report.record result with
      | none =>
          { w with reported := w.reported ++ [result], bsp := .halted .countOverflow none }
      | some later => { w with reported := w.reported ++ [result], bsp := .reporting later }
  | _ => w

def World.popped (w : World m) : (q : QueueName) → PopReply q.Item → World m
  | .interCore, .returned raw => { w with ap := .returning raw (workResult raw) }
  | .completion, .returned result => w.recorded result
  | .tensors, .returned tensor => { w with ap := .reducing tensor }
  | _, _ => w

/-- The AP goes back to its loop condition when its pop has returned. -/
def pollingAfter (polling : Bool) : (q : QueueName) → PopReply q.Item → Bool
  | .interCore, .running => polling
  | .interCore, _ => false
  | _, _ => polling

/-- The next step of the core loads and stores no atomic. -/
def WeakKernel.ownNext (k : WeakKernel m) : Core → Bool
  | .bsp =>
      match k.cores.world.bsp with
      | .booting _ => true
      | .reporting report => ¬ report.reports < m.batch.length
      | _ => false
  | .ap =>
      match k.cores.world.ap with
      | .reducing _ => true
      | .freeing _ => k.stored
      | _ => false

/-- What such a step accesses; a call of the frame allocator counts as a write. -/
def ownAccess (w next : World m) : Core → Option (Shared × Bool)
  | .bsp =>
      match w.bsp, next.bsp with
      | .booting .initializing, _ => m.memoryMap.map fun _ => (.pmm, true)
      | .booting .probing, _ => some (.pmm, true)
      | .booting (.returningProbe _), _ => some (.pmm, true)
      | .booting (.allocatingTensor _), _ => some (.pmm, true)
      | .booting (.preparing _ _), .booting (.startingAp _) => some (.tensor, true)
      | _, _ => none
  | .ap =>
      match w.ap, next.ap with
      | .reducing _, .freeing _ => some (.tensor, false)
      | .freeing _, _ => some (.pmm, true)
      | _, _ => none

def WeakKernel.accessed (k : WeakKernel m) (next : World m) (core : Core) :
    Memory Core Atomic Shared UInt64 :=
  match ownAccess k.cores.world next core with
  | none => k.memory
  | some (c, writes) => k.memory.access core c writes

def DataWorld.bspAt (d : DataWorld m) (pc : BspPc m.batch.length) : DataWorld m :=
  { d with world := { d.world with bsp := pc } }

def DataWorld.apAt (d : DataWorld m) (pc : ApPc) : DataWorld m :=
  { d with world := { d.world with ap := pc } }

/-- The time is the one of the message that is loaded or stored. -/
inductive KernelAction where
  | own (core : Core)
  | push (q : QueueName) (a : PushAccess)
  | pop (q : QueueName) (a : PopAction q.Item)
  | awaitAp (time : Nat)
  | awaitTensor (time : Nat)
  | loadSum (time : Nat)
  | announce (time : Nat)
  | loadProcessed (time : Nat)
  | countProcessed (time : Nat)
  | storeSum (time : Nat)
  | complete (time : Nat)

def KernelAction.core : KernelAction → Core
  | .own core => core
  | .push q _ => q.producer
  | .pop q _ => q.consumer
  | .awaitAp _ | .awaitTensor _ | .loadSum _ => .bsp
  | .announce _ | .loadProcessed _ | .countProcessed _ | .storeSum _ | .complete _ => .ap

def KernelAction.loads : KernelAction → Option (Atomic × Nat)
  | .push q (.load time) => some (.head q, time)
  | .push q (.check time) => some (.tail q, time)
  | .pop q (.load time) => some (.tail q, time)
  | .pop q (.check time) => some (.head q, time)
  | .awaitAp time => some (.flag .apReady, time)
  | .awaitTensor time => some (.flag .tensorComplete, time)
  | .loadSum time => some (.flag .tensorSumBits, time)
  | .loadProcessed time | .countProcessed time => some (.flag .apProcessed, time)
  | _ => none

def weakKernelStep (k : WeakKernel m) : KernelAction → Option (WeakKernel m)
  | .own core =>
      if k.ownNext core then
        match coreStep k.cores.world core with
        | .moves next =>
            some { k with memory := k.accessed next core, cores := k.cores.after next core }
        | _ => none
      else none
  | .push q a =>
      match k.cores.world.pushing q with
      | some item =>
          (pushStep q.place k.memory (k.queues q) (a.pushing item)).map fun (memory, queue) =>
            let reply := pushReply (k.queues q).pusher queue.pusher
            { k with
              memory := memory
              queues := Function.update k.queues q queue
              cores := { k.cores with world := k.cores.world.pushed q reply } }
      | none => none
  | .pop q a =>
      if k.cores.world.popping k.polling q then
        (popStep q.place k.memory (k.queues q) a).map fun (memory, queue) =>
          let reply := popReply (k.queues q).popper queue.popper
          { k with
            memory := memory
            queues := Function.update k.queues q queue
            cores := { k.cores with world := k.cores.world.popped q reply }
            polling := pollingAfter k.polling q reply }
      else none
  | .awaitAp time =>
      match k.cores.world.bsp with
      | .awaitingAp tensor =>
          (k.memory.load .bsp (.flag .apReady) time .acquire).map fun (ready, memory) =>
            { k with
              memory := memory
              cores := if ready = 0 then k.cores else k.cores.bspAt (.sending tensor) }
      | _ => none
  | .awaitTensor time =>
      match k.cores.world.bsp, k.seen with
      | .awaitingTensor, false =>
          (k.memory.load .bsp (.flag .tensorComplete) time .acquire).map fun (complete, memory) =>
            { k with memory := memory, seen := complete ≠ 0 }
      | _, _ => none
  | .loadSum time =>
      match k.cores.world.bsp, k.seen with
      | .awaitingTensor, true =>
          (k.memory.load .bsp (.flag .tensorSumBits) time .acquire).map fun (bits, memory) =>
            { k with
              memory := memory
              cores := { k.cores.bspAt (.reporting (Report.start _)) with
                tensorSum := some (fromSumBits bits) } }
      | _, _ => none
  | .announce time =>
      match k.cores.world.ap with
      | .starting =>
          (k.memory.store .ap (.flag .apReady) time .release 1).map fun memory =>
            { k with memory := memory, cores := k.cores.apAt .working }
      | _ => none
  | .loadProcessed time =>
      match k.cores.world.ap, k.polling with
      | .working, false =>
          (k.memory.load .ap (.flag .apProcessed) time .relaxed).map fun (processed, memory) =>
            if processed.toNat < m.batch.length then { k with memory := memory, polling := true }
            else { k with memory := memory, cores := k.cores.apAt .pollingTensor }
      | _, _ => none
  | .countProcessed time =>
      match k.cores.world.ap with
      | .counting =>
          (k.memory.exchange .ap (.flag .apProcessed) time .relaxed .release (· + 1)).map
            fun (_, memory) => { k with memory := memory, cores := k.cores.apAt .working }
      | _ => none
  | .storeSum time =>
      match k.cores.world.ap, k.stored with
      | .freeing _, false =>
          (k.memory.store .ap (.flag .tensorSumBits) time .release k.cores.sumBits).map
            fun memory => { k with memory := memory, stored := true }
      | _, _ => none
  | .complete time =>
      match k.cores.world.ap with
      | .completing _ =>
          (k.memory.store .ap (.flag .tensorComplete) time .release 1).map fun memory =>
            { k with
              memory := memory
              cores := k.cores.apData { k.cores.world with ap := .finished } }
      | _ => none

def Newest (memory : Memory Core Atomic Shared UInt64) (l : Atomic) (value : UInt64) : Prop :=
  ∃ time message, memory.messages l time = some message ∧ message.value = value ∧
    ∀ later, time < later → memory.messages l later = none

def World.items (w : World m) : (q : QueueName) → List q.Item
  | .interCore => w.interCore.items
  | .completion => w.completion.items
  | .tensors => w.tensors.items

def DataWorld.flag (d : DataWorld m) : Flag → UInt64
  | .apReady => if d.world.apReady then 1 else 0
  | .apProcessed => UInt64.ofNat d.world.apProcessed
  | .tensorComplete => if d.world.tensorComplete then 1 else 0
  | .tensorSumBits => d.sumBits

/-- The state of the two cores that an observer of all messages sees: its queues
    hold what has been published, and its flags are the newest ones. -/
structure Shows (k : WeakKernel m) (d : DataWorld m) : Prop where
  cores : k.cores = d.still
  items : ∀ q, d.world.items q = (k.queues q).held
  flags : ∀ f, (f = .tensorSumBits → k.stored = true) → Newest k.memory (.flag f) (d.flag f)

end CellKernel
