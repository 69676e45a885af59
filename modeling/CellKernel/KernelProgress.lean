import CellKernel.KernelTensor

/-
When the two cores can wait for each other. The BSP reads results only after
the tensor is complete, and the AP turns to the tensor only after it has
delivered a result for every payload: the completion queue must hold them all.
-/
namespace CellKernel
open CellCore CellFifo CellPmm CellRuns CellTensor

variable {m : Machine}

/-- The phases of the BSP: 0 boot, 1 waiting for the AP, 2 sending, 3 waiting
    for the tensor, 4 reporting, 5 finished. -/
def BspPc.phase {count : Nat} : BspPc count → Nat
  | .booting _ => 0
  | .awaitingAp _ => 1
  | .sending _ => 2
  | .awaitingTensor => 3
  | .reporting _ => 4
  | .finished _ => 5
  | .halted .tensorQueueFull _ => 2
  | .halted .countOverflow _ => 4
  | .halted _ _ => 0

/-- The phases of the AP: 0 parked, 1 starting, 2 the batch, 3 polling for the
    tensor, 4 to 6 with the tensor, 7 finished. -/
def ApPc.phase : ApPc → Nat
  | .parked => 0
  | .starting => 1
  | .working => 2
  | .returning _ _ => 2
  | .counting => 2
  | .pollingTensor => 3
  | .reducing _ => 4
  | .panicked _ => 4
  | .freeing _ => 5
  | .completing _ => 6
  | .finished => 7

/-- A result that is delivered and not yet counted in AP_PROCESSED. -/
def ApPc.uncounted : ApPc → Nat
  | .counting => 1
  | _ => 0

/-- How far the two cores can be apart. -/
structure Paced (w : World m) : Prop where
  counted : w.apProcessed + w.ap.uncounted = w.reported.length + w.completion.items.length
  delivered : 3 ≤ w.ap.phase → w.apProcessed = m.batch.length
  ready : w.apReady = true ↔ 2 ≤ w.ap.phase
  parked : w.ap.phase = 0 ↔ w.bsp.phase = 0
  complete : w.tensorComplete = true ↔ w.ap.phase = 7
  tensor : w.tensors.items.length + (if 4 ≤ w.ap.phase then 1 else 0) =
    if 3 ≤ w.bsp.phase then 1 else 0
  waited : 4 ≤ w.bsp.phase → w.tensorComplete = true
  unsent : 3 ≤ w.bsp.phase → w.unsent = []
  unreported : w.bsp.phase ≤ 3 → w.reported = []

theorem paced_start : Paced (World.start m) := by
  constructor <;> simp [World.start, ApPc.phase, ApPc.uncounted, BspPc.phase]

theorem boot_failure_phase {count : Nat} {why : Failure} {held : Option UInt64}
    (during : why.duringBoot = true) : (BspPc.halted why held : BspPc count).phase = 0 := by
  cases why <;> first | rfl | cases during

theorem uncounted_late {ap : ApPc} (late : 3 ≤ ap.phase) : ap.uncounted = 0 := by
  cases ap with
  | counting => simp [ApPc.phase] at late
  | _ => rfl

theorem conserved_lengths {w : World m} {reported waiting : List RawPayload}
    (conserved : Conserved w reported waiting) :
    w.reported.length + w.completion.items.length + w.ap.held.length +
      w.interCore.items.length + w.unsent.length = m.batch.length := by
  have lengths := congrArg List.length conserved.batch
  rw [conserved.results, conserved.completion, List.length_map, List.length_map]
  simp only [List.length_append] at lengths
  omega

theorem popped_results {w : World m} {result : WorkResult}
    {completion : Fifo WorkResult m.completionCap}
    (popped : w.completion.pop = some (result, completion)) :
    (w.reported ++ [result]).length + completion.items.length =
      w.reported.length + w.completion.items.length := by
  rw [(pop_some_iff _ _ _).mp popped, List.length_append, List.length_singleton,
    List.length_cons]
  omega

section
variable {w next : World m} (paced : Paced w)
include paced

theorem paced_by_bsp (ap : next.ap = w.ap) (processed : next.apProcessed = w.apProcessed)
    (ready : next.apReady = w.apReady) (complete : next.tensorComplete = w.tensorComplete)
    (results : next.reported.length + next.completion.items.length =
      w.reported.length + w.completion.items.length)
    (parked : next.bsp.phase = 0 ↔ w.bsp.phase = 0)
    (tensor : next.tensors.items.length + (if 3 ≤ w.bsp.phase then 1 else 0) =
      w.tensors.items.length + if 3 ≤ next.bsp.phase then 1 else 0)
    (waited : 4 ≤ next.bsp.phase → w.tensorComplete = true)
    (unsent : 3 ≤ next.bsp.phase → next.unsent = [])
    (unreported : next.bsp.phase ≤ 3 → next.reported = []) : Paced next := by
  have before := paced.tensor
  constructor
  · rw [ap, processed, results]
    exact paced.counted
  · rw [ap, processed]
    exact paced.delivered
  · rw [ap, ready]
    exact paced.ready
  · rw [ap, parked]
    exact paced.parked
  · rw [ap, complete]
    exact paced.complete
  · rw [ap]
    omega
  · rw [complete]
    exact waited
  · exact unsent
  · exact unreported

theorem paced_by_ap (bsp : next.bsp = w.bsp) (unsent : next.unsent = w.unsent)
    (reported : next.reported = w.reported)
    (counted : next.apProcessed + next.ap.uncounted + w.completion.items.length =
      w.apProcessed + w.ap.uncounted + next.completion.items.length)
    (delivered : 3 ≤ next.ap.phase → next.apProcessed = m.batch.length)
    (ready : next.apReady = true ↔ 2 ≤ next.ap.phase)
    (parked : w.ap.phase ≠ 0 ∧ next.ap.phase ≠ 0)
    (complete : next.tensorComplete = true ↔ next.ap.phase = 7)
    (unfinished : w.ap.phase ≠ 7)
    (tensor : next.tensors.items.length + (if 4 ≤ next.ap.phase then 1 else 0) =
      w.tensors.items.length + if 4 ≤ w.ap.phase then 1 else 0) : Paced next := by
  constructor
  · have before := paced.counted
    rw [reported]
    omega
  · exact delivered
  · exact ready
  · have before := paced.parked
    rw [bsp]
    exact ⟨fun zero => absurd zero parked.2, fun zero => absurd (before.mpr zero) parked.1⟩
  · exact complete
  · rw [bsp, tensor]
    exact paced.tensor
  · intro later
    rw [bsp] at later
    exact absurd (paced.complete.mp (paced.waited later)) unfinished
  · rw [bsp, unsent]
    exact paced.unsent
  · rw [bsp, reported]
    exact paced.unreported

theorem paced_boot {pc : BootPc} (here : w.bsp = .booting pc) (same : SameTraffic w next)
    (ap : next.ap = w.ap) (there : next.bsp.phase = 0) : Paced next := by
  have phase : w.bsp.phase = 0 := by rw [here]; rfl
  apply paced_by_bsp paced ap same.apProcessed same.apReady same.tensorComplete
  · rw [same.reported, same.completion]
  · rw [there, phase]
  · rw [same.tensors, there, phase]
  · omega
  · omega
  · intro _
    rw [same.reported]
    exact paced.unreported (by omega)

theorem paced_ap_started {tensor : TensorChunk .ready}
    (here : w.bsp = .booting (.startingAp tensor)) :
    Paced { w with bsp := .awaitingAp tensor, ap := .starting } := by
  have phase : w.bsp.phase = 0 := by rw [here]; rfl
  have idle := paced.parked.mpr phase
  have unready : ¬ w.apReady = true := by rw [paced.ready]; omega
  have incomplete : ¬ w.tensorComplete = true := by rw [paced.complete]; omega
  have none := paced.unreported (by omega)
  have counted := paced.counted
  have queue := paced.tensor
  have uncounted : w.ap.uncounted = 0 := by
    cases at_ : w.ap <;> rw [at_] at idle <;> first | rfl | cases idle
  rw [idle, phase] at queue
  constructor
  · rw [← counted, uncounted]
    rfl
  · intro late
    simp [ApPc.phase] at late
  · simp [ApPc.phase, unready]
  · simp [ApPc.phase, BspPc.phase]
  · simp [ApPc.phase, incomplete]
  · simpa [ApPc.phase, BspPc.phase] using queue
  · intro late
    simp [BspPc.phase] at late
  · intro late
    simp [BspPc.phase] at late
  · intro _
    exact none

/-- A move of the BSP that leads to the send loop, or leaves it there. -/
theorem paced_sending (ap : next.ap = w.ap) (processed : next.apProcessed = w.apProcessed)
    (ready : next.apReady = w.apReady) (complete : next.tensorComplete = w.tensorComplete)
    (reported : next.reported = w.reported) (completion : next.completion = w.completion)
    (tensors : next.tensors = w.tensors) (before : w.bsp.phase = 1 ∨ w.bsp.phase = 2)
    (after : next.bsp.phase = 2) : Paced next := by
  apply paced_by_bsp paced ap processed ready complete
  · rw [reported, completion]
  · omega
  · rw [tensors, if_neg (by omega), if_neg (by omega)]
  · omega
  · omega
  · intro _
    rw [reported]
    exact paced.unreported (by omega)

theorem paced_tensor_sent {tensor : TensorChunk .ready}
    {tensors : Fifo (TensorChunk .ready) m.tensorCap} (here : w.bsp = .sending tensor)
    (unsent : w.unsent = []) (pushed : w.tensors.push tensor = some tensors) :
    Paced { w with tensors := tensors, bsp := .awaitingTensor } := by
  have phase : w.bsp.phase = 2 := by rw [here]; rfl
  obtain ⟨_, items⟩ := (push_some_iff _ _ _).mp pushed
  refine paced_by_bsp paced rfl rfl rfl rfl rfl ?_ ?_ ?_ ?_ ?_
  · rw [phase]
    simp [BspPc.phase]
  · rw [phase]
    simp [BspPc.phase, items]
  · simp [BspPc.phase]
  · intro _
    exact unsent
  · intro _
    exact paced.unreported (by omega)

theorem paced_tensor_seen (here : w.bsp = .awaitingTensor) (complete : w.tensorComplete = true) :
    Paced { w with bsp := .reporting (Report.start _) } := by
  have phase : w.bsp.phase = 3 := by rw [here]; rfl
  refine paced_by_bsp paced rfl rfl rfl rfl rfl ?_ ?_ ?_ ?_ ?_
  · rw [phase]
    simp [BspPc.phase]
  · rw [phase]
    simp [BspPc.phase]
  · intro _
    exact complete
  · intro _
    exact paced.unsent (by omega)
  · simp [BspPc.phase]

theorem paced_reporting (ap : next.ap = w.ap) (processed : next.apProcessed = w.apProcessed)
    (ready : next.apReady = w.apReady) (complete : next.tensorComplete = w.tensorComplete)
    (unsent : next.unsent = w.unsent) (tensors : next.tensors = w.tensors)
    (before : w.bsp.phase = 4) (after : 4 ≤ next.bsp.phase)
    (results : next.reported.length + next.completion.items.length =
      w.reported.length + w.completion.items.length) : Paced next := by
  apply paced_by_bsp paced ap processed ready complete results
  · omega
  · rw [tensors, if_pos (by omega), if_pos (by omega)]
  · intro _
    exact paced.waited (by omega)
  · intro _
    rw [unsent]
    exact paced.unsent (by omega)
  · omega

theorem paced_bsp (move : BspMove w next) : Paced next := by
  cases move with
  | booted pc later next here same ap there nearer =>
    exact paced_boot paced here same ap (by rw [there]; rfl)
  | bootFailed pc why held next here same ap there during =>
    exact paced_boot paced here same ap (by rw [there]; exact boot_failure_phase during)
  | apStarted tensor here => exact paced_ap_started paced here
  | apSeen tensor here ready =>
    exact paced_sending paced rfl rfl rfl rfl rfl rfl rfl (Or.inl (by rw [here]; rfl)) rfl
  | sent tensor raw rest interCore here unsent pushed =>
    have phase : w.bsp.phase = 2 := by rw [here]; rfl
    exact paced_sending paced rfl rfl rfl rfl rfl rfl rfl (Or.inr phase) phase
  | tensorRefused tensor here unsent full =>
    exact paced_sending paced rfl rfl rfl rfl rfl rfl rfl (Or.inr (by rw [here]; rfl)) rfl
  | tensorSent tensor tensors here unsent pushed => exact paced_tensor_sent paced here unsent pushed
  | tensorSeen here complete => exact paced_tensor_seen paced here complete
  | reported report later result completion here more popped recorded =>
    exact paced_reporting paced rfl rfl rfl rfl rfl rfl (by rw [here]; rfl)
      (by simp [BspPc.phase]) (popped_results popped)
  | countOverflowed report result completion here more popped overflow =>
    exact paced_reporting paced rfl rfl rfl rfl rfl rfl (by rw [here]; rfl)
      (by simp [BspPc.phase]) (popped_results popped)
  | finished report here all =>
    exact paced_reporting paced rfl rfl rfl rfl rfl rfl (by rw [here]; rfl)
      (by simp [BspPc.phase]) rfl

theorem paced_ap_between (bsp : next.bsp = w.bsp) (unsent : next.unsent = w.unsent)
    (reported : next.reported = w.reported) (ready : next.apReady = w.apReady)
    (complete : next.tensorComplete = w.tensorComplete)
    (before : 2 ≤ w.ap.phase ∧ w.ap.phase ≤ 6) (after : 2 ≤ next.ap.phase ∧ next.ap.phase ≤ 6)
    (counted : next.apProcessed + next.ap.uncounted + w.completion.items.length =
      w.apProcessed + w.ap.uncounted + next.completion.items.length)
    (delivered : 3 ≤ next.ap.phase → next.apProcessed = m.batch.length)
    (tensor : next.tensors.items.length + (if 4 ≤ next.ap.phase then 1 else 0) =
      w.tensors.items.length + if 4 ≤ w.ap.phase then 1 else 0) : Paced next := by
  apply paced_by_ap paced bsp unsent reported counted delivered
  · rw [ready, paced.ready]
    omega
  · omega
  · rw [complete, paced.complete]
    omega
  · omega
  · exact tensor

theorem paced_ap_holding (bsp : next.bsp = w.bsp) (unsent : next.unsent = w.unsent)
    (reported : next.reported = w.reported) (ready : next.apReady = w.apReady)
    (complete : next.tensorComplete = w.tensorComplete)
    (processed : next.apProcessed = w.apProcessed)
    (completion : next.completion = w.completion) (tensors : next.tensors = w.tensors)
    (before : 4 ≤ w.ap.phase ∧ w.ap.phase ≤ 6) (after : 4 ≤ next.ap.phase ∧ next.ap.phase ≤ 6) :
    Paced next := by
  have one : w.ap.uncounted = 0 := uncounted_late (by omega)
  have other : next.ap.uncounted = 0 := uncounted_late (by omega)
  apply paced_ap_between paced bsp unsent reported ready complete (by omega) (by omega)
  · rw [processed, completion, one, other]
  · intro _
    rw [processed]
    exact paced.delivered (by omega)
  · rw [tensors, if_pos before.1, if_pos after.1]

theorem paced_ap_working (bsp : next.bsp = w.bsp) (unsent : next.unsent = w.unsent)
    (reported : next.reported = w.reported) (ready : next.apReady = w.apReady)
    (complete : next.tensorComplete = w.tensorComplete) (tensors : next.tensors = w.tensors)
    (before : w.ap.phase = 2) (after : next.ap.phase = 2)
    (counted : next.apProcessed + next.ap.uncounted + w.completion.items.length =
      w.apProcessed + w.ap.uncounted + next.completion.items.length) : Paced next := by
  apply paced_ap_between paced bsp unsent reported ready complete (by omega) (by omega) counted
  · omega
  · rw [tensors, before, after]

theorem paced_announced (here : w.ap = .starting) :
    Paced { w with apReady := true, ap := .working } := by
  have phase : w.ap.phase = 1 := by rw [here]; rfl
  have incomplete : ¬ w.tensorComplete = true := by rw [paced.complete]; omega
  refine paced_by_ap paced rfl rfl rfl ?_ ?_ ?_ ?_ ?_ ?_ ?_
  · rw [here]
    rfl
  · intro late
    simp [ApPc.phase] at late
  · simp [ApPc.phase]
  · simp [here, ApPc.phase]
  · simp [ApPc.phase, incomplete]
  · omega
  · rw [phase]
    simp [ApPc.phase]

theorem paced_batch_done {reported waiting : List RawPayload}
    (conserved : Conserved w reported waiting) (here : w.ap = .working)
    (all : ¬ w.apProcessed < m.batch.length) : Paced { w with ap := .pollingTensor } := by
  have lengths := conserved_lengths conserved
  have counts := paced.counted
  rw [here] at counts
  refine paced_ap_between paced rfl rfl rfl rfl rfl ?_ ?_ ?_ ?_ ?_
  · simp [here, ApPc.phase]
  · simp [ApPc.phase]
  · rw [here]
    rfl
  · intro _
    change w.apProcessed + 0 = _ at counts
    change w.apProcessed = _
    omega
  · rw [here]
    rfl

theorem paced_returned {raw : RawPayload} {result : WorkResult}
    {completion : Fifo WorkResult m.completionCap} (here : w.ap = .returning raw result)
    (pushed : w.completion.push result = some completion) :
    Paced { w with completion := completion, ap := .counting } := by
  obtain ⟨_, items⟩ := (push_some_iff _ _ _).mp pushed
  refine paced_ap_working paced rfl rfl rfl rfl rfl rfl (by rw [here]; rfl) rfl ?_
  simp [here, ApPc.uncounted, items]
  omega

/-- The delivered results are at most as many as the payloads, so AP_PROCESSED
    does not wrap. -/
theorem paced_counted {reported waiting : List RawPayload}
    (conserved : Conserved w reported waiting) (here : w.ap = .counting) :
    Paced { w with apProcessed := (w.apProcessed + 1) % 2 ^ 64, ap := .working } := by
  have lengths := conserved_lengths conserved
  have counts := paced.counted
  have fits := m.countable
  rw [here] at counts
  change w.apProcessed + 1 = _ at counts
  have small : (w.apProcessed + 1) % 2 ^ 64 = w.apProcessed + 1 := Nat.mod_eq_of_lt (by omega)
  refine paced_ap_working paced rfl rfl rfl rfl rfl rfl (by rw [here]; rfl) rfl ?_
  rw [here]
  change (w.apProcessed + 1) % 2 ^ 64 + 0 + _ = w.apProcessed + 1 + _
  rw [small]

theorem paced_tensor_taken {tensor : TensorChunk .ready}
    {tensors : Fifo (TensorChunk .ready) m.tensorCap} (here : w.ap = .pollingTensor)
    (popped : w.tensors.pop = some (tensor, tensors)) :
    Paced { w with tensors := tensors, ap := .reducing tensor } := by
  have items := (pop_some_iff _ _ _).mp popped
  refine paced_ap_between paced rfl rfl rfl rfl rfl ?_ ?_ ?_ ?_ ?_
  · simp [here, ApPc.phase]
  · simp [ApPc.phase]
  · rw [here]
    rfl
  · intro _
    exact paced.delivered (by simp [here, ApPc.phase])
  · simp [here, ApPc.phase, items]

theorem paced_completed {returned : Bool} (here : w.ap = .completing returned) :
    Paced { w with tensorComplete := true, ap := .finished } := by
  have phase : w.ap.phase = 6 := by rw [here]; rfl
  have ready := paced.ready
  rw [phase] at ready
  refine paced_by_ap paced rfl rfl rfl ?_ ?_ ?_ ?_ ?_ ?_ ?_
  · rw [here]
    rfl
  · intro _
    exact paced.delivered (by omega)
  · simp [ApPc.phase, ready]
  · simp [here, ApPc.phase]
  · simp [ApPc.phase]
  · omega
  · rw [phase]
    simp [ApPc.phase]

theorem paced_ap {reported waiting : List RawPayload} (conserved : Conserved w reported waiting)
    (move : ApMove w next) : Paced next := by
  cases move with
  | started here => exact paced_announced paced here
  | taken raw interCore here more popped =>
    refine paced_ap_working paced rfl rfl rfl rfl rfl rfl (by rw [here]; rfl) rfl ?_
    rw [here]
    rfl
  | batchDone here all => exact paced_batch_done paced conserved here all
  | returned raw result completion here pushed => exact paced_returned paced here pushed
  | counted here => exact paced_counted paced conserved here
  | tensorTaken tensor tensors here popped => exact paced_tensor_taken paced here popped
  | reductionPanicked tensor panic here refused =>
    refine paced_ap_holding paced rfl rfl rfl rfl rfl rfl rfl rfl ?_ ?_
    · simp [here, ApPc.phase]
    · simp [ApPc.phase]
  | reduced tensor count here read =>
    refine paced_ap_holding paced rfl rfl rfl rfl rfl rfl rfl rfl ?_ ?_
    · simp [here, ApPc.phase]
    · simp [ApPc.phase]
  | freePanicked physAddr fault here refused =>
    refine paced_ap_holding paced rfl rfl rfl rfl rfl rfl rfl rfl ?_ ?_
    · simp [here, ApPc.phase]
    · simp [ApPc.phase]
  | freed physAddr returned pmm here ran =>
    refine paced_ap_holding paced rfl rfl rfl rfl rfl rfl rfl rfl ?_ ?_
    · simp [here, ApPc.phase]
    · simp [ApPc.phase]
  | completed returned here => exact paced_completed paced here

end

theorem reachable_paced {w : World m} (reached : Reachable step (World.start m) w) :
    Paced w := by
  apply kept_by_moves _ _ reached
  · exact paced_start
  · intro s core t before paced moves
    cases core_move_cases moves with
    | inl move => exact paced_bsp paced move
    | inr move =>
      obtain ⟨reported, waiting, conserved⟩ := reachable_conserved before
      exact paced_ap paced conserved move

end CellKernel
