import CellKernel.KernelProgress

/-
The two cores on a machine that lets both start: no check of the boot fails,
the only tensor is the one the BSP has frozen, the tensor queue takes it, and
the AP does not panic.
-/
namespace CellKernel
open CellFifo CellPmm CellRuns CellTensor

variable {m : Machine}

/-- The BSP has what the machine gives it and has not halted, except by the
    panic of a count. -/
def Boot.BspOn (b : Boot m) : BspPc m.batch.length → Prop
  | .booting (.allocatingTensor offset) => offset = b.offset
  | .booting (.preparing offset frame) => offset = b.offset ∧ frame = b.frame
  | .booting (.startingAp tensor) => tensor = b.tensor
  | .booting _ => True
  | .awaitingAp tensor => tensor = b.tensor
  | .sending tensor => tensor = b.tensor
  | .halted why _ => why = .countOverflow
  | _ => True

def Boot.ApOn (b : Boot m) : ApPc → Prop
  | .reducing tensor => tensor = b.tensor
  | .freeing physAddr => physAddr = b.frame.address
  | .panicked _ => False
  | _ => True

structure OnCourse (b : Boot m) (w : World m) : Prop where
  bsp : b.BspOn w.bsp
  ap : b.ApOn w.ap
  queue : ∀ tensor ∈ w.tensors.items, tensor = b.tensor

theorem on_course_start (b : Boot m) : OnCourse b (World.start m) := by
  constructor
  · trivial
  · trivial
  · intro tensor queued
    cases queued

/-- What the boot has done so far while there is no tensor frame. -/
theorem boot_at_of_owned {f : Frames m} {w : World m} (owned : Owned f w) {pc : BootPc}
    (here : w.bsp = .booting pc) (unallocated : w.bsp.tensorAddress = none) : f.BootAt w pc := by
  cases owned with
  | inl before =>
    cases before.boot with
    | inl boot =>
      obtain ⟨other, there, boot⟩ := boot
      rw [here] at there
      cases there
      exact boot
    | inr halted =>
      obtain ⟨why, there⟩ := halted
      rw [here] at there
      cases there
  | inr allocated =>
    obtain ⟨place, at_place⟩ := allocated
    exact absurd unallocated (at_place.launched pc here)

/-- The frame is still allocated when the AP frees it. -/
theorem taken_of_freeing {f : Frames m} {w : World m} (owned : Owned f w) {physAddr : UInt64}
    (here : w.ap = .freeing physAddr) : w.pmm = f.taken := by
  cases owned with
  | inl before =>
    have idle := before.ap
    rw [here] at idle
    cases idle
  | inr allocated =>
    obtain ⟨place, at_place⟩ := allocated
    have holds := at_place.ap
    have pmm := at_place.pmm
    rw [here] at holds
    cases place with
    | ap => exact pmm
    | _ => cases holds

section
variable {b : Boot m} {w next : World m} (course : OnCourse b w)
include course

theorem on_course_bsp_step (bsp : b.BspOn next.bsp) (ap : next.ap = w.ap)
    (tensors : next.tensors = w.tensors) : OnCourse b next := by
  constructor
  · exact bsp
  · rw [ap]
    exact course.ap
  · rw [tensors]
    exact course.queue

theorem on_course_ap_step (ap : b.ApOn next.ap) (bsp : next.bsp = w.bsp)
    (tensors : next.tensors = w.tensors) : OnCourse b next := by
  constructor
  · rw [bsp]
    exact course.bsp
  · exact ap
  · rw [tensors]
    exact course.queue

theorem on_course_boot (owned : Owned b.toFrames w) {pc : BootPc} (here : w.bsp = .booting pc) :
    OnCourse b (bootStep w pc) := by
  have place := course.bsp
  have boot := boot_at_of_owned owned here
  rw [here] at place boot
  cases pc with
  | initializing =>
    rw [bootStep, b.initialize_step (boot rfl).1]
    exact on_course_bsp_step course trivial rfl rfl
  | probing =>
    rw [bootStep, b.probe_step (boot rfl).1]
    exact on_course_bsp_step course trivial rfl rfl
  | returningProbe probe =>
    obtain ⟨same, taken, _⟩ := boot rfl
    rw [bootStep, same, b.return_step taken]
    exact on_course_bsp_step course trivial rfl rfl
  | requestingHhdm =>
    rw [bootStep, b.hhdm_step]
    exact on_course_bsp_step course rfl rfl rfl
  | allocatingTensor offset =>
    rw [bootStep, b.allocate_step (boot rfl).1]
    exact on_course_bsp_step course ⟨place, rfl⟩ rfl rfl
  | preparing offset frame =>
    obtain ⟨sameOffset, sameFrame⟩ := place
    rw [bootStep, sameOffset, sameFrame, b.prepare_step]
    exact on_course_bsp_step course rfl rfl rfl
  | startingAp tensor =>
    rw [bootStep, b.start_step]
    exact ⟨place, trivial, course.queue⟩

theorem on_course_bsp (room : 0 < m.tensorCap) (owned : Owned b.toFrames w) (paced : Paced w)
    (moves : bspStep w = .moves next) : OnCourse b next := by
  have place := course.bsp
  by_cases booting : ∃ pc, w.bsp = .booting pc
  · obtain ⟨pc, here⟩ := booting
    have stepped : bootStep w pc = next := by
      simpa [bspStep, here] using moves
    rw [← stepped]
    exact on_course_boot course owned here
  · cases bsp_move_cases moves with
    | booted pc later next here same ap there nearer => exact absurd ⟨pc, here⟩ booting
    | bootFailed pc why held next here same ap there during => exact absurd ⟨pc, here⟩ booting
    | apStarted tensor here => exact absurd ⟨_, here⟩ booting
    | apSeen tensor here ready =>
      rw [here] at place
      exact on_course_bsp_step course place rfl rfl
    | sent tensor raw rest interCore here unsent pushed =>
      exact on_course_bsp_step course place rfl rfl
    | tensorRefused tensor here unsent full =>
      -- the only tensor has not been sent yet
      have phase : w.bsp.phase = 2 := by rw [here]; rfl
      have queue := paced.tensor
      rw [phase] at queue
      rw [push_none_iff] at full
      simp only [Nat.reduceLeDiff, if_false] at queue
      omega
    | tensorSent tensor tensors here unsent pushed =>
      rw [here] at place
      obtain ⟨_, items⟩ := (push_some_iff _ _ _).mp pushed
      refine ⟨trivial, course.ap, ?_⟩
      intro other queued
      rw [items, List.mem_append, List.mem_singleton] at queued
      cases queued with
      | inl earlier => exact course.queue other earlier
      | inr same =>
        rw [same]
        exact place
    | countOverflowed report result completion here more popped overflow =>
      exact on_course_bsp_step course rfl rfl rfl
    | _ => exact on_course_bsp_step course trivial rfl rfl

theorem on_course_ap (owned : Owned b.toFrames w) (move : ApMove w next) : OnCourse b next := by
  have place := course.ap
  cases move with
  | tensorTaken tensor tensors here popped =>
    have items := (pop_some_iff _ _ _).mp popped
    refine ⟨course.bsp, ?_, ?_⟩
    · apply course.queue
      rw [items]
      exact List.mem_cons_self
    · intro other queued
      apply course.queue
      rw [items]
      exact List.mem_cons_of_mem _ queued
  | reductionPanicked tensor panic here refused =>
    rw [here] at place
    have same : tensor = b.tensor := place
    rw [same, b.tensor_reads] at refused
    cases refused
  | reduced tensor count here read =>
    rw [here] at place
    have same : tensor = b.tensor := place
    refine on_course_ap_step course ?_ rfl rfl
    rw [same]
    rfl
  | freePanicked physAddr fault here refused =>
    have taken := taken_of_freeing owned here
    rw [here] at place
    have same : physAddr = b.frame.address := place
    rw [same, from_address_of_frame, taken, b.freed] at refused
    cases refused
  | _ => exact on_course_ap_step course trivial rfl rfl

end

theorem reachable_on_course (b : Boot m) (room : 0 < m.tensorCap) {w : World m}
    (reached : Reachable step (World.start m) w) : OnCourse b w := by
  apply kept_by_moves _ _ reached
  · exact on_course_start b
  · intro s core t before course moves
    have owned := reachable_owned b.toFrames room before
    cases core with
    | bsp => exact on_course_bsp course room owned (reachable_paced before) moves
    | ap => exact on_course_ap course owned (ap_move_cases moves)

end CellKernel
