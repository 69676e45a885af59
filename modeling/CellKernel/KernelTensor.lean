import CellKernel.KernelBatch
import CellKernel.KernelBoot

/-
The tensor frame on its way from the allocator to the BSP, through the tensor
queue to the AP and back into the bitmap.
-/
namespace CellKernel
open CellFifo CellPmm CellRuns CellTensor

variable {m : Machine}

def BspPc.tensorAddress {count : Nat} : BspPc count → Option UInt64
  | .booting (.preparing _ frame) => some frame.address
  | .booting (.startingAp tensor) => some tensor.physAddr
  | .awaitingAp tensor => some tensor.physAddr
  | .sending tensor => some tensor.physAddr
  | .halted _ held => held
  | _ => none

def ApPc.tensorAddress : ApPc → Option UInt64
  | .reducing tensor => some tensor.physAddr
  | .freeing physAddr => some physAddr
  | .panicked held => some held
  | _ => none

inductive Place where
  | bsp
  | queue
  | ap
  | bitmap
  deriving DecidableEq

/-- Every place that has the frame: a core, a chunk in the queue, or the bitmap
    with the frame usable and not allocated. -/
def World.holders (w : World m) (frame : PhysicalFrame) : List Place :=
  (if w.bsp.tensorAddress = some frame.address then [.bsp] else []) ++
  (w.tensors.items.filter fun tensor => tensor.physAddr == frame.address).map (fun _ => .queue) ++
  (if w.ap.tensorAddress = some frame.address then [.ap] else []) ++
  (if CellBitmap.bit w.pmm.usable frame.number &&
    !CellBitmap.bit w.pmm.allocated frame.number then [.bitmap] else [])

def Frames.BootAt (f : Frames m) (w : World m) : BootPc → Prop
  | .initializing => w.pmm = .new ∧ w.pmmCalls = []
  | .probing => w.pmm = f.ready ∧ w.pmmCalls = f.initializeCall
  | .returningProbe probe => probe = f.frame ∧ w.pmm = f.taken ∧ w.pmmCalls = f.probeCall
  | .requestingHhdm => w.pmm = f.ready ∧ w.pmmCalls = f.returnCall
  | .allocatingTensor _ => w.pmm = f.ready ∧ w.pmmCalls = f.returnCall
  | .preparing _ _ => False
  | .startingAp _ => False

structure BeforeTensor (f : Frames m) (w : World m) : Prop where
  frame : w.tensorFrame = none
  queue : w.tensors.items = []
  ap : w.ap = .parked
  incomplete : w.tensorComplete = false
  boot : (∃ pc, w.bsp = .booting pc ∧ f.BootAt w pc) ∨ ∃ why, w.bsp = .halted why none

/-- The frame is in the given place and nowhere else, and the allocator has been
    called for it just as often. -/
structure TensorAt (f : Frames m) (w : World m) (place : Place) : Prop where
  frame : w.tensorFrame = some f.frame
  bsp : w.bsp.tensorAddress = if place = .bsp then some f.frame.address else none
  queue : w.tensors.items.map TensorChunk.physAddr =
    if place = .queue then [f.frame.address] else []
  ap : w.ap.tensorAddress = if place = .ap then some f.frame.address else none
  pmm : w.pmm = if place = .bitmap then f.ready else f.taken
  calls : w.pmmCalls = f.bootCalls ++
    if place = .bitmap then [(.ap, .free f.frame, .freed true)] else []
  complete : w.tensorComplete = true → place = .bitmap
  returned : ∀ r, w.ap = .completing r → r = true ∧ place = .bitmap
  launched : ∀ pc, w.bsp = .booting pc → w.bsp.tensorAddress ≠ none

def Owned (f : Frames m) (w : World m) : Prop :=
  BeforeTensor f w ∨ ∃ place, TensorAt f w place

theorem owned_start (f : Frames m) : Owned f (World.start m) := by
  left
  constructor
  · rfl
  · rfl
  · rfl
  · rfl
  · exact Or.inl ⟨.initializing, rfl, rfl, rfl⟩

section
variable {f : Frames m} {w : World m}

theorem before_boot (before : BeforeTensor f w) {pc : BootPc} (here : w.bsp = .booting pc)
    (boot : f.BootAt w pc) : Owned f (bootStep w pc) := by
  obtain ⟨frame, queue, ap, incomplete, _⟩ := before
  cases pc with
  | initializing =>
    obtain ⟨pmm, calls⟩ := boot
    rw [bootStep, f.initialize_step pmm]
    left
    refine ⟨frame, queue, ap, incomplete, Or.inl ⟨.probing, rfl, rfl, ?_⟩⟩
    simp only [World.boot, World.called, calls, List.nil_append]
    rfl
  | probing =>
    obtain ⟨pmm, calls⟩ := boot
    rw [bootStep, f.probe_step pmm]
    left
    refine ⟨frame, queue, ap, incomplete, Or.inl ⟨.returningProbe f.frame, rfl, rfl, rfl, ?_⟩⟩
    simp only [World.boot, World.called, calls]
    rfl
  | returningProbe probe =>
    obtain ⟨same, pmm, calls⟩ := boot
    rw [bootStep, same, f.return_step pmm]
    left
    refine ⟨frame, queue, ap, incomplete, Or.inl ⟨.requestingHhdm, rfl, rfl, ?_⟩⟩
    simp only [World.boot, World.called, calls]
    rfl
  | requestingHhdm =>
    left
    unfold bootStep requestHhdm
    dsimp only
    split
    · exact ⟨frame, queue, ap, incomplete, Or.inr ⟨_, rfl⟩⟩
    · exact ⟨frame, queue, ap, incomplete, Or.inl ⟨_, rfl, boot⟩⟩
  | allocatingTensor offset =>
    obtain ⟨pmm, calls⟩ := boot
    rw [bootStep, f.allocate_step pmm]
    right
    refine ⟨.bsp, rfl, rfl, ?_, ?_, rfl, ?_, ?_, ?_, ?_⟩
    · simp only [World.boot, World.called, queue]
      rfl
    · simp only [World.boot, World.called, ap]
      rfl
    · simp only [World.boot, World.called, calls]
      rfl
    · intro complete
      simp only [World.boot, World.called, incomplete] at complete
      cases complete
    · intro r completing
      simp only [World.boot, World.called, ap] at completing
      cases completing
    · intro pc booting
      simp [World.boot, BspPc.tensorAddress]
  | preparing offset frame => exact absurd boot id
  | startingAp tensor => exact absurd boot id

theorem tensor_at_same {next : World m} {place : Place} (at_place : TensorAt f w place)
    (frame : next.tensorFrame = w.tensorFrame)
    (bsp : next.bsp.tensorAddress = w.bsp.tensorAddress) (tensors : next.tensors = w.tensors)
    (ap : next.ap.tensorAddress = w.ap.tensorAddress) (pmm : next.pmm = w.pmm)
    (calls : next.pmmCalls = w.pmmCalls)
    (complete : next.tensorComplete = true → place = .bitmap)
    (returned : ∀ r, next.ap = .completing r → w.ap = .completing r)
    (launched : ∀ pc, next.bsp = .booting pc → w.bsp.tensorAddress ≠ none) :
    TensorAt f next place := by
  constructor
  · rw [frame]
    exact at_place.frame
  · rw [bsp]
    exact at_place.bsp
  · rw [tensors]
    exact at_place.queue
  · rw [ap]
    exact at_place.ap
  · rw [pmm]
    exact at_place.pmm
  · rw [calls]
    exact at_place.calls
  · exact complete
  · intro r completing
    exact at_place.returned r (returned r completing)
  · intro pc booting
    rw [bsp]
    exact launched pc booting

theorem tensor_at_boot {place : Place} (at_place : TensorAt f w place) {pc : BootPc}
    (here : w.bsp = .booting pc) : ∃ place, TensorAt f (bootStep w pc) place := by
  have holds := at_place.launched pc here
  have complete := at_place.complete
  rw [here] at holds
  cases pc with
  | initializing => exact absurd rfl holds
  | probing => exact absurd rfl holds
  | returningProbe probe => exact absurd rfl holds
  | requestingHhdm => exact absurd rfl holds
  | allocatingTensor offset => exact absurd rfl holds
  | preparing offset frame =>
    have address : w.bsp.tensorAddress = some frame.address := by rw [here]; rfl
    unfold bootStep prepareTensor
    dsimp only
    split
    · exact ⟨place, tensor_at_same at_place rfl address.symm rfl rfl rfl rfl complete
        (fun _ completing => completing) (fun _ booting => by cases booting)⟩
    · rename_i virtual _
      rw [frozen_tensor]
      by_cases null : virtual = 0
      · rw [if_pos null]
        exact ⟨place, tensor_at_same at_place rfl address.symm rfl rfl rfl rfl complete
          (fun _ completing => completing) (fun _ booting => by cases booting)⟩
      · rw [if_neg null]
        refine ⟨place, tensor_at_same at_place rfl address.symm rfl rfl rfl rfl complete
          (fun _ completing => completing) ?_⟩
        intro _ _
        rw [address]
        exact Option.some_ne_none _
  | startingAp tensor =>
    have address : w.bsp.tensorAddress = some tensor.physAddr := by rw [here]; rfl
    have quiet : (ApPc.starting).tensorAddress = w.ap.tensorAddress := by
      rw [at_place.ap]
      have held := at_place.bsp
      rw [address] at held
      cases place <;> simp_all [ApPc.tensorAddress]
    unfold bootStep startAp
    dsimp only
    split
    · exact ⟨place, tensor_at_same at_place rfl address.symm rfl rfl rfl rfl complete
        (fun _ completing => completing) (fun _ booting => by cases booting)⟩
    · split
      · exact ⟨place, tensor_at_same at_place rfl address.symm rfl quiet rfl rfl complete
          (fun _ completing => by cases completing) (fun _ booting => by cases booting)⟩
      · exact ⟨place, tensor_at_same at_place rfl address.symm rfl rfl rfl rfl complete
          (fun _ completing => completing) (fun _ booting => by cases booting)⟩

theorem tensor_at_bsp (room : 0 < m.tensorCap) {place : Place} (at_place : TensorAt f w place)
    {next : World m} (move : BspMove w next) (launched : ∀ pc, w.bsp ≠ .booting pc) :
    ∃ place, TensorAt f next place := by
  have complete := at_place.complete
  cases move with
  | booted pc later next here same ap there nearer => exact absurd here (launched pc)
  | bootFailed pc why held next here same ap there during => exact absurd here (launched pc)
  | apStarted tensor here => exact absurd here (launched _)
  | apSeen tensor here ready =>
    have address : w.bsp.tensorAddress = some tensor.physAddr := by rw [here]; rfl
    exact ⟨place, tensor_at_same at_place rfl address.symm rfl rfl rfl rfl complete
      (fun _ completing => completing) (fun _ booting => by cases booting)⟩
  | sent tensor raw rest interCore here unsent pushed =>
    exact ⟨place, tensor_at_same at_place rfl rfl rfl rfl rfl rfl complete
      (fun _ completing => completing) at_place.launched⟩
  | tensorRefused tensor here unsent full =>
    have address := at_place.bsp
    have queue := at_place.queue
    rw [here] at address
    have atBsp : place = .bsp := by
      cases place <;> simp_all [BspPc.tensorAddress]
    subst place
    have empty : w.tensors.items = [] := by simpa using queue
    rw [push_none_iff, empty] at full
    simp only [List.length_nil] at full
    omega
  | tensorSent tensor tensors here unsent pushed =>
    have address := at_place.bsp
    have queue := at_place.queue
    rw [here] at address
    have atBsp : place = .bsp := by
      cases place <;> simp_all [BspPc.tensorAddress]
    subst place
    have empty : w.tensors.items = [] := by simpa using queue
    have same : tensor.physAddr = f.frame.address := by
      simpa [BspPc.tensorAddress] using address
    obtain ⟨_, items⟩ := (push_some_iff _ _ _).mp pushed
    refine ⟨.queue, at_place.frame, rfl, ?_, at_place.ap, at_place.pmm, at_place.calls, ?_, ?_, ?_⟩
    · rw [items, empty]
      simp [same]
    · intro done
      cases complete done
    · intro r completing
      cases (at_place.returned r completing).2
    · intro pc booting
      cases booting
  | _ =>
    exact ⟨place, tensor_at_same at_place rfl (by simp [*, BspPc.tensorAddress]) rfl rfl rfl rfl
      complete (fun _ completing => completing) (fun _ booting => by cases booting)⟩

theorem tensor_at_ap_idle {next : World m} {place : Place} (at_place : TensorAt f w place)
    (frame : next.tensorFrame = w.tensorFrame) (bsp : next.bsp = w.bsp)
    (tensors : next.tensors = w.tensors) (ap : next.ap.tensorAddress = w.ap.tensorAddress)
    (pmm : next.pmm = w.pmm) (calls : next.pmmCalls = w.pmmCalls)
    (complete : next.tensorComplete = w.tensorComplete)
    (returned : ∀ r, next.ap ≠ .completing r) : TensorAt f next place := by
  apply tensor_at_same at_place frame (by rw [bsp]) tensors ap pmm calls
  · rw [complete]
    exact at_place.complete
  · intro r completing
    exact absurd completing (returned r)
  · rw [bsp]
    exact at_place.launched

theorem tensor_at_ap {place : Place} (at_place : TensorAt f w place) {next : World m}
    (move : ApMove w next) : ∃ place, TensorAt f next place := by
  cases move with
  | tensorTaken tensor tensors here popped =>
    have items := (pop_some_iff _ _ _).mp popped
    have queue := at_place.queue
    rw [items, List.map_cons] at queue
    have atQueue : place = .queue := by
      cases place <;> simp_all
    subst place
    simp only [if_true, List.cons.injEq, List.map_eq_nil_iff] at queue
    obtain ⟨same, empty⟩ := queue
    refine ⟨.ap, at_place.frame, at_place.bsp, ?_, ?_, at_place.pmm, at_place.calls, ?_, ?_,
      at_place.launched⟩
    · simp [empty]
    · simp [ApPc.tensorAddress, same]
    · intro done
      cases at_place.complete done
    · intro r completing
      cases completing
  | freed physAddr done pmm here ran =>
    have address := at_place.ap
    rw [here] at address
    have atAp : place = .ap := by
      cases place <;> simp_all [ApPc.tensorAddress]
    subst place
    have same : physAddr = f.frame.address := by
      simpa [ApPc.tensorAddress] using address
    have taken : w.pmm = f.taken := at_place.pmm
    rw [same, from_address_of_frame, taken, f.freed] at ran
    cases ran
    refine ⟨.bitmap, at_place.frame, at_place.bsp, at_place.queue, rfl, rfl, ?_, ?_, ?_,
      at_place.launched⟩
    · have calls : w.pmmCalls = f.bootCalls ++ [] := at_place.calls
      simp [World.called, calls, same, from_address_of_frame]
    · intro _
      rfl
    · intro r completing
      cases completing
      exact ⟨rfl, rfl⟩
  | completed done here =>
    obtain ⟨_, atBitmap⟩ := at_place.returned done here
    refine ⟨place, tensor_at_same at_place rfl rfl rfl (by rw [here]; rfl) rfl rfl
      (fun _ => atBitmap) (fun _ completing => by cases completing) at_place.launched⟩
  | _ =>
    -- the tensor stays where it is
    exact ⟨place, tensor_at_ap_idle at_place rfl rfl rfl (by simp [*, ApPc.tensorAddress])
      rfl rfl rfl (fun _ completing => by cases completing)⟩

end

theorem reachable_owned (f : Frames m) (room : 0 < m.tensorCap) {w : World m}
    (reached : Reachable step (World.start m) w) : Owned f w := by
  apply kept_by_moves _ _ reached
  · exact owned_start f
  · intro s core t before owned moves
    cases core with
    | bsp =>
      by_cases booting : ∃ pc, s.bsp = .booting pc
      · obtain ⟨pc, here⟩ := booting
        have next : bootStep s pc = t := by
          simpa [coreStep, bspStep, here] using moves
        rw [← next]
        cases owned with
        | inl unallocated =>
          cases unallocated.boot with
          | inl boot =>
            obtain ⟨other, there, boot⟩ := boot
            rw [here] at there
            cases there
            exact before_boot unallocated here boot
          | inr halted =>
            obtain ⟨why, there⟩ := halted
            rw [here] at there
            cases there
        | inr allocated =>
          obtain ⟨place, at_place⟩ := allocated
          exact Or.inr (tensor_at_boot at_place here)
      · have launched : ∀ pc, s.bsp ≠ .booting pc := fun pc here => booting ⟨pc, here⟩
        cases owned with
        | inl unallocated =>
          cases unallocated.boot with
          | inl boot => exact absurd boot.choose_spec.1 (launched _)
          | inr halted =>
            obtain ⟨why, there⟩ := halted
            simp [coreStep, bspStep, there] at moves
        | inr allocated =>
          obtain ⟨place, at_place⟩ := allocated
          exact Or.inr (tensor_at_bsp room at_place (bsp_move_cases moves) launched)
    | ap =>
      cases owned with
      | inl unallocated => simp [coreStep, apStep, unallocated.ap] at moves
      | inr allocated =>
        obtain ⟨place, at_place⟩ := allocated
        exact Or.inr (tensor_at_ap at_place (ap_move_cases moves))

theorem holders_of_place {f : Frames m} {w : World m} {place : Place}
    (at_place : TensorAt f w place) : w.holders f.frame = [place] := by
  have bsp := at_place.bsp
  have queue := at_place.queue
  have ap := at_place.ap
  have pmm := at_place.pmm
  unfold World.holders
  rw [bsp, ap, pmm]
  have chunks : (w.tensors.items.filter fun tensor => tensor.physAddr == f.frame.address).map
      (fun _ => Place.queue) = if place = .queue then [.queue] else [] := by
    split
    · rename_i here
      rw [if_pos here, List.map_eq_singleton_iff] at queue
      obtain ⟨tensor, items, same⟩ := queue
      simp [items, same]
    · rename_i elsewhere
      rw [if_neg elsewhere, List.map_eq_nil_iff] at queue
      simp [queue]
  rw [chunks]
  cases place <;> simp [f.ready_free, f.taken_not_free]

/-- From its allocation on, the tensor frame is in exactly one place; once the
    AP runs, its one successful free is the only further call of the allocator;
    and when the tensor is complete the allocator is as initialize left it. -/
theorem tensor_frame_owned_once {entries : List Entry} {stats : PmmStats} {ready : BitmapPmm}
    (mapped : m.memoryMap = some entries)
    (initialized : BitmapPmm.initialize .new entries = .ok (stats, ready))
    (some_free : 0 < ready.freeFrames) (room : 0 < m.tensorCap) {w : World m}
    (reached : Reachable step (World.start m) w) :
    ∃ frame : PhysicalFrame,
      (∀ tensorFrame, w.tensorFrame = some tensorFrame →
        tensorFrame = frame ∧ ∃ place, w.holders frame = [place]) ∧
      (w.ap ≠ .parked → ∃ later, (later = [] ∨ later = [(.ap, .free frame, .freed true)]) ∧
        w.pmmCalls = [(.bsp, .initializeWith entries, .initialized stats),
          (.bsp, .allocate, .allocated (some frame)), (.bsp, .free frame, .freed true),
          (.bsp, .allocate, .allocated (some frame))] ++ later) ∧
      (∀ returned, w.ap = .completing returned → returned = true) ∧
      (w.tensorComplete = true → w.pmm = ready) := by
  obtain ⟨f, sameEntries, sameStats, sameReady⟩ := frames_of_free mapped initialized some_free
  subst sameEntries
  subst sameStats
  subst sameReady
  refine ⟨f.frame, ?_⟩
  cases reachable_owned f room reached with
  | inl before =>
    refine ⟨?_, ?_, ?_, ?_⟩
    · intro tensorFrame allocated
      rw [before.frame] at allocated
      cases allocated
    · intro running
      exact absurd before.ap running
    · intro returned completing
      rw [before.ap] at completing
      cases completing
    · intro complete
      rw [before.incomplete] at complete
      cases complete
  | inr allocated =>
    obtain ⟨place, at_place⟩ := allocated
    refine ⟨?_, ?_, ?_, ?_⟩
    · intro tensorFrame found
      rw [at_place.frame] at found
      cases found
      exact ⟨rfl, place, holders_of_place at_place⟩
    · intro _
      refine ⟨_, ?_, at_place.calls⟩
      split
      · exact Or.inr rfl
      · exact Or.inl rfl
    · intro returned completing
      exact (at_place.returned returned completing).1
    · intro complete
      rw [at_place.pmm, if_pos (at_place.complete complete)]

theorem two_packet_frame_returned :
    ∃ (b : Boot (twoPacketMachine 2)) (w : World (twoPacketMachine 2)),
      Reachable step (World.start _) w ∧ w.tensorComplete = true ∧ w.pmm = b.ready := by
  obtain ⟨b⟩ := two_packet_boot 2
  have reached := b.reducing_completes (two_packets_reducing b) rfl rfl
  obtain ⟨_, _, _, _, back⟩ :=
    tensor_frame_owned_once b.mapped b.initialized b.some_free (by decide) reached
  exact ⟨b, _, reached, rfl, back rfl⟩

end CellKernel
