import CellKernel.Console

/-
The lines of the two cores on a machine that lets both start: how many each has
issued at a program point, and what each of its steps adds.
-/
namespace CellKernel
open CellCore CellFifo CellPmm CellRuns CellSerial CellTensor Lines

variable {m : Machine}

def lastOf (results : List WorkResult) : Message :=
  let succeeded := results.countP fun result => !isFailure result
  let failed := results.countP isFailure
  if succeeded == 9 && failed == 1 then batchCompleted
  else batchFailed succeeded failed failed

def Machine.closing (m : Machine) (fmt : Formats) : List Message :=
  reduction fmt (asF32 TENSOR_ELEMENTS.toNat) ::
    (m.batch.map workResult).map report ++ [lastOf (m.batch.map workResult)]

def BootPc.issued : BootPc → Nat
  | .initializing => 1
  | .probing => 2
  | .returningProbe _ => 3
  | .requestingHhdm | .allocatingTensor _ | .preparing _ _ => 4
  | .startingAp _ => 5

namespace Boot
variable (b : Boot m) (fmt : Formats)

/-- The lines of the BSP before it starts the AP. -/
def opening : List Message :=
  [active, stats b.stats, allocated b.frame, returned, prepared b.frame]

def joined : List Message := b.opening ++ [pipelineOnline, feedbackActive]

def reporting (results : List WorkResult) : List Message :=
  b.joined ++ reduction fmt (asF32 TENSOR_ELEMENTS.toNat) :: results.map report

def bspIssued (w : World m) : BspPc m.batch.length → List Message
  | .booting pc => b.opening.take pc.issued
  | .awaitingAp _ => b.opening
  | .sending _ | .awaitingTensor => b.joined
  | .reporting _ => b.reporting fmt w.reported
  | .finished r => b.reporting fmt w.reported ++ [last r]
  | .halted _ _ => []

def success : Message := reduced ⟨100, 100, 0⟩ TENSOR_ELEMENTS.toNat b.frame.address

def apIssued : ApPc → List Message
  | .parked | .starting => []
  | .completing _ | .finished => [apOnline, b.success]
  | _ => [apOnline]

/-- All lines so far, in the order of each core. -/
def issued (w : World m) : Core → List Message
  | .bsp => b.bspIssued fmt w w.bsp
  | .ap => b.apIssued w.ap

def transcript : Core → List Message
  | .bsp => b.joined ++ m.closing fmt
  | .ap => [apOnline, b.success]

end Boot

section
variable {b : Boot m} {fmt : Formats} {bytes : Bytes} {d : DataWorld m} {next : World m}

theorem boot_issues (owned : Owned b.toFrames d.world) (course : OnCourse b d.world)
    {pc : BootPc} (here : d.world.bsp = .booting pc) :
    b.bspIssued fmt (bootStep d.world pc) (bootStep d.world pc).bsp =
      b.opening.take pc.issued ++ bootLines fmt d.world pc := by
  have place := course.bsp
  have boot := boot_at_of_owned owned here
  rw [here] at place boot
  cases pc with
  | initializing =>
    rw [bootStep, b.initialize_step (boot rfl).1]
    simp only [bootLines, b.mapped, (boot rfl).1, b.initialized]
    rfl
  | probing =>
    rw [bootStep, b.probe_step (boot rfl).1]
    simp only [bootLines, (boot rfl).1, b.allocated]
    rfl
  | returningProbe probe =>
    obtain ⟨same, taken, _⟩ := boot rfl
    rw [bootStep, same, b.return_step taken]
    simp only [bootLines, taken, b.freed]
    rfl
  | requestingHhdm =>
    rw [bootStep, b.hhdm_step]
    simp only [bootLines, b.hhdm]
    rfl
  | allocatingTensor offset =>
    rw [bootStep, b.allocate_step (boot rfl).1]
    simp only [bootLines, (boot rfl).1, b.allocated]
    rfl
  | preparing offset frame =>
    obtain ⟨sameOffset, sameFrame⟩ := place
    rw [bootStep, sameOffset, sameFrame, b.prepare_step]
    simp only [bootLines, checked_add_fits b.addressable, frozen_tensor, if_neg b.tensor_not_null]
    rfl
  | startingAp tensor =>
    rw [bootStep, b.start_step]
    simp only [bootLines, b.smp, b.processor, if_true]
    rfl

theorem bsp_issues (room : 0 < m.tensorCap) (small : m.batch.length < 2 ^ 31)
    (reached : Reachable dataStep (DataWorld.start m bytes) d)
    (moves : coreStep d.world .bsp = .moves next) :
    b.issued fmt next .bsp = b.issued fmt d.world .bsp ++ bspLines fmt d := by
  have projected := data_run_projects reached
  have halts := halted_by_count b room (.next .bsp projected trivial (step_of_moves moves))
  by_cases booting : ∃ pc, d.world.bsp = .booting pc
  · obtain ⟨pc, here⟩ := booting
    have stepped : bootStep d.world pc = next := by
      simp only [coreStep, bspStep, here, Outcome.moves.injEq] at moves
      exact moves
    subst stepped
    simp only [Boot.issued, bspLines, here]
    exact boot_issues (reachable_owned b.toFrames room projected)
      (reachable_on_course b room projected) here
  · cases bsp_move_cases moves with
    | booted pc later next here => exact absurd ⟨pc, here⟩ booting
    | bootFailed pc why held next here => exact absurd ⟨pc, here⟩ booting
    | apStarted tensor here => exact absurd ⟨_, here⟩ booting
    | apSeen tensor here ready =>
      simp only [Boot.issued, bspLines, here]
      rfl
    | sent tensor raw rest interCore here unsent pushed =>
      simp only [Boot.issued, bspLines, here, unsent, List.append_nil]
      rfl
    | tensorRefused tensor here unsent full => exact absurd (halts _ _ rfl).2 (by omega)
    | tensorSent tensor tensors here unsent pushed =>
      simp only [Boot.issued, bspLines, here, unsent, pushed, List.append_nil]
      rfl
    | tensorSeen here complete =>
      have summed := (data_invariant b.toFrames room reached).complete complete
      have read : fromSumBits d.sumBits = asF32 TENSOR_ELEMENTS.toNat := by
        rw [summed.bits]
        exact bits_come_back (by decide)
      have none : d.world.reported = [] := by
        have reporting := reachable_reporting projected
        rw [Reporting, here] at reporting
        exact reporting
      simp only [Boot.issued, Boot.bspIssued, Boot.reporting, bspLines, here, read, none]
      rfl
    | reported r later result completion here more popped recorded =>
      simp only [Boot.issued, Boot.bspIssued, Boot.reporting, bspLines, here, more, if_true,
        popped, recorded, List.map_append, List.append_assoc]
      rfl
    | countOverflowed r result completion here more popped overflow =>
      exact absurd (halts _ _ rfl).2 (by omega)
    | finished r here all =>
      simp only [Boot.issued, Boot.bspIssued, bspLines, here, all, if_false]

theorem bsp_keeps_ap_issued {w : World m} (reached : Reachable step (World.start m) w)
    (moves : coreStep w .bsp = .moves next) : b.apIssued next.ap = b.apIssued w.ap := by
  cases bsp_move_cases moves with
  | booted pc later next here same ap => rw [ap]
  | bootFailed pc why held next here same ap => rw [ap]
  | apStarted tensor here =>
    rw [parked_while_booting reached _ here]
    rfl
  | _ => rfl

theorem freeing_lines (room : 0 < m.tensorCap)
    (reached : Reachable dataStep (DataWorld.start m bytes) d) {physAddr : UInt64}
    (here : d.world.ap = .freeing physAddr) :
    apLines fmt d ⟨100, 100, 0⟩ = [b.success] := by
  have projected := data_run_projects reached
  have taken := taken_of_freeing (reachable_owned b.toFrames room projected) here
  have place := (reachable_on_course b room projected).ap
  have summed := (data_invariant b.toFrames room reached).ap
  rw [here] at place summed
  have same : physAddr = b.frame.address := place
  have sum : d.sum = some (asF32 TENSOR_ELEMENTS.toNat, TENSOR_ELEMENTS.toNat) := summed.sum
  have equal : (asF32 TENSOR_ELEMENTS.toNat).beq TENSOR_ELEMENTS.toFloat32 = true :=
    (equal_as_f32_iff (by decide) (by decide)).mpr rfl
  simp only [apLines, here, same, from_address_of_frame, taken, b.freed, sum, equal, Bool.and_true,
    if_true]
  rfl

theorem last_of_finished {w : World m} (reached : Reachable step (World.start m) w)
    {r : Report m.batch.length} (here : w.bsp = .finished r) :
    last r = lastOf (m.batch.map workResult) := by
  obtain ⟨reported, accounted, recorded⟩ := finished_reports_batch reached here
  rw [← reported, last, lastOf, Report.batchCompleted, recorded, accounted.succeeded,
    accounted.failed]
  simp only [Bool.and_assoc, Bool.and_self]

theorem kernel_last_line (sent : List.Forall₂
    (fun traceId raw => sentPayload traceId = .ok raw) (List.range' 1 PACKET_COUNT) m.batch) :
    lastOf (m.batch.map workResult) = batchCompleted := by
  have failures := sent_failures sent
  have one : (List.range' 1 PACKET_COUNT).countP (fun traceId => traceId == 4) = 1 := by decide
  have total := List.length_eq_countP_add_countP isFailure (l := m.batch.map workResult)
  have ten : m.batch.length = 10 := sent.length_eq.symm
  simp only [Bool.not_eq_true, Bool.decide_eq_false] at total
  rw [List.length_map] at total
  have nine : (m.batch.map workResult).countP (fun result => !isFailure result) = 9 := by omega
  simp only [lastOf, nine, failures, one]
  rfl

theorem bsp_issued_at_end {w : World m} (reached : Reachable step (World.start m) w)
    {r : Report m.batch.length} (here : w.bsp = .finished r) :
    b.bspIssued fmt w w.bsp = b.transcript fmt .bsp := by
  rw [here, Boot.bspIssued, Boot.reporting, last_of_finished reached here,
    (finished_reports_batch reached here).1, List.append_assoc]
  rfl

theorem issued_begins {w : World m} (reached : Reachable step (World.start m) w) (core : Core) :
    b.issued fmt w core <+: b.transcript fmt core := by
  cases core with
  | ap =>
    simp only [Boot.issued, Boot.transcript]
    cases w.ap <;> simp [Boot.apIssued]
  | bsp =>
    have opening : b.opening <+: b.joined := List.prefix_append _ _
    have joined : b.joined <+: b.transcript fmt .bsp := List.prefix_append _ _
    rw [Boot.issued]
    cases here : w.bsp with
    | booting pc => exact (List.take_prefix _ _).trans (opening.trans joined)
    | awaitingAp tensor => exact opening.trans joined
    | sending tensor => exact joined
    | awaitingTensor => exact joined
    | reporting r =>
      obtain ⟨reported, waiting, conserved⟩ := reachable_conserved reached
      have results : w.reported <+: m.batch.map workResult := by
        rw [conserved.results, conserved.batch]
        simp only [List.append_assoc, List.map_append]
        exact List.prefix_append _ _
      have lines := (results.map report).trans
        (List.prefix_append _ [lastOf (m.batch.map workResult)])
      exact (List.prefix_append_right_inj _).mpr (List.cons_prefix_cons.mpr ⟨rfl, lines⟩)
    | finished r =>
      rw [← here, bsp_issued_at_end reached here]
    | halted why held => exact List.nil_prefix

theorem ap_issues (room : 0 < m.tensorCap)
    (reached : Reachable dataStep (DataWorld.start m bytes) d) {context : TraceContext}
    (tensor : ∀ physAddr, d.world.ap = .freeing physAddr → context = ⟨100, 100, 0⟩)
    (moves : coreStep d.world .ap = .moves next) :
    b.issued fmt next .ap = b.issued fmt d.world .ap ++ apLines fmt d context ∧
      b.issued fmt next .bsp = b.issued fmt d.world .bsp := by
  have projected := data_run_projects reached
  have course := reachable_on_course b room (.next .ap projected trivial (step_of_moves moves))
  have ap := course.ap
  cases ap_move_cases moves with
  | reductionPanicked tensor panic here refused => exact ap.elim
  | freePanicked physAddr fault here refused => exact ap.elim
  | freed physAddr returned pmm here ran =>
    rw [tensor physAddr here, freeing_lines room reached here]
    simp only [Boot.issued, here]
    exact ⟨rfl, rfl⟩
  | reduced tensor count here read =>
    simp only [Boot.issued, apLines, here, read, List.append_nil]
    exact ⟨rfl, rfl⟩
  | _ =>
    simp only [Boot.issued, apLines, *, List.append_nil]
    exact ⟨rfl, rfl⟩

end

end CellKernel
