import CellKernel.WeakKernelInvariant

/-
Every step of the two cores over release and acquire memory is a step of the two
cores over one shared state, or changes nothing of the state that is shown.
-/
namespace CellKernel
open CellCore CellFifo CellInterleaving CellPmm CellRuns CellTensor CellWeak ReleaseAcquire

variable {m : Machine}

@[simp] theorem still_bsp (w : World m) : w.still.bsp = w.bsp := rfl
@[simp] theorem still_ap (w : World m) : w.still.ap = w.ap := rfl

@[simp] theorem still_pushing (w : World m) (q : QueueName) : w.still.pushing q = w.pushing q := by
  cases q <;> rfl

@[simp] theorem still_popping (w : World m) (polling : Bool) (q : QueueName) :
    w.still.popping polling q = w.popping polling q := by
  cases q <;> rfl

theorem boot_still (w : World m) (pc : BootPc) : bootStep w.still pc = (bootStep w pc).still := by
  cases pc with
  | initializing =>
    simp only [bootStep, initializePmm]
    split
    · rfl
    · simp only [World.still]
      split <;> rfl
  | probing =>
    simp only [bootStep, probeFrame, World.still]
    split <;> rfl
  | returningProbe probe =>
    simp only [bootStep, returnProbe, World.still]
    split <;> rfl
  | requestingHhdm =>
    simp only [bootStep, requestHhdm]
    split <;> rfl
  | allocatingTensor offset =>
    simp only [bootStep, allocateTensor, World.still]
    split <;> rfl
  | preparing offset frame =>
    simp only [bootStep, prepareTensor]
    split
    · rfl
    · split <;> rfl
  | startingAp tensor =>
    simp only [bootStep, startAp]
    split
    · rfl
    · split <;> rfl

theorem after_still (d : DataWorld m) (next : World m) (core : Core) :
    d.still.after next.still core = (d.after next core).still := by
  cases core with
  | bsp =>
    simp only [DataWorld.after, DataWorld.bspData, DataWorld.still, World.still]
    split <;> rfl
  | ap =>
    simp only [DataWorld.after, DataWorld.apData, DataWorld.still, World.still]
    split
    · split <;> rfl
    · rfl
    · rfl

/-- The kernel is in a state that shows the given one. -/
def Showing (k : WeakKernel m) (d : DataWorld m) : Prop := ∃ logs, WeakKernelInv k d logs

/-- The state shown is one step of the core further. -/
def Moved (k : WeakKernel m) (d : DataWorld m) (core : Core) : Prop :=
  ∃ e, dataStep d core = some e ∧ Showing k e

section
variable {k k' : WeakKernel m} {d : DataWorld m} {logs : Flag → Log Core Atomic}
  {w next : World m} {core : Core}

theorem own_access_outside {c : Shared} {writes : Bool}
    (accessed : ownAccess w next core = some (c, writes)) (q : QueueName) (i : Nat) :
    c ≠ .slot q i := by
  rintro rfl
  cases core with
  | bsp =>
    simp only [ownAccess] at accessed
    split at accessed
    · obtain ⟨_, _, same⟩ := Option.map_eq_some_iff.mp accessed
      cases same
    all_goals cases accessed
  | ap =>
    simp only [ownAccess] at accessed
    split at accessed
    all_goals cases accessed

theorem accessed_memory (inv : MemoryInv k.memory k.queues logs) (next : World m) (core : Core) :
    MemoryInv (k.accessed next core) k.queues logs ∧
      ∀ i, k.memory.views i ≤ (k.accessed next core).views i := by
  unfold WeakKernel.accessed
  split
  · exact ⟨inv, fun i => le_refl _⟩
  · rename_i c writes accessed
    have framed := access_frame k.memory core c writes
    refine ⟨memory_frame inv framed ?_, framed.grows⟩
    intro q i slot
    exact own_access_outside accessed q i (Option.some.inj slot)

theorem accessed_accesses (inv : AccessInv k.memory k.queues w) (next : World m)
    (allowed : core = .bsp ∧ (k.queues .tensors).heads.length = 1 ∨
      core = .ap ∧ w.ap.took = true) : AccessInv (k.accessed next core) k.queues w := by
  unfold WeakKernel.accessed
  split
  · exact inv
  · exact accesses_added inv _ allowed

theorem bsp_data_bits (d : DataWorld m) (next : World m) :
    (d.bspData next).sumBits = d.sumBits := by
  unfold DataWorld.bspData
  split <;> rfl

theorem items_same (traffic : SameTraffic w next) (q : QueueName) : next.items q = w.items q := by
  cases q with
  | interCore => exact congrArg Fifo.items traffic.interCore
  | completion => exact congrArg Fifo.items traffic.completion
  | tensors => exact congrArg Fifo.items traffic.tensors

theorem flags_same {e : DataWorld m} (traffic : SameTraffic d.world e.world) (f : Flag)
    (other : f ≠ .tensorSumBits) : e.flag f = d.flag f := by
  cases f with
  | apReady => simp only [DataWorld.flag, traffic.apReady]
  | apProcessed => simp only [DataWorld.flag, traffic.apProcessed]
  | tensorComplete => simp only [DataWorld.flag, traffic.tensorComplete]
  | tensorSumBits => exact absurd rfl other

theorem booting_quiet {pc : BootPc} (here : w.bsp = .booting pc) (parked : w.ap = .parked)
    (polling : Bool) (q : QueueName) :
    w.pushing q = none ∧ w.popping polling q = false := by
  cases q <;> simp [World.pushing, World.popping, here, parked]

theorem boot_apart {pc : BootPc} (here : w.bsp = .booting pc) (parked : w.ap = .parked) :
    SameTraffic w (bootStep w pc) ∧
      ((bootStep w pc).ap = .parked ∨ (bootStep w pc).ap = .starting) := by
  have move := boot_step_move here
  generalize bootStep w pc = next at move
  cases move with
  | booted pc later next _ same ap there nearer => exact ⟨same, Or.inl (ap.trans parked)⟩
  | bootFailed pc why held next _ same ap there during => exact ⟨same, Or.inl (ap.trans parked)⟩
  | apStarted tensor _ => exact ⟨⟨rfl, rfl, rfl, rfl, rfl, rfl, rfl, rfl⟩, Or.inr rfl⟩
  | _ => simp_all

theorem weak_boot (inv : WeakKernelInv k d logs) {pc : BootPc} (here : d.world.bsp = .booting pc)
    (parked : d.world.ap = .parked) (ran : weakKernelStep k (.own .bsp) = some k') :
    Moved k' d .bsp := by
  obtain ⟨memory, queues, cores, seen, polling, stored⟩ := k
  have same : cores = d.still := inv.cores
  subst same
  have moves : coreStep d.still.world .bsp = .moves (bootStep d.world pc).still := by
    rw [← boot_still]
    simp only [coreStep, bspStep, DataWorld.still, still_bsp, here]
  have real : coreStep d.world .bsp = .moves (bootStep d.world pc) := by
    simp only [coreStep, bspStep, here]
  simp only [weakKernelStep, moves] at ran
  split at ran
  · cases ran
    obtain ⟨traffic, ap⟩ := boot_apart here parked
    have world := after_world d (bootStep d.world pc) .bsp
    have bits : (d.after (bootStep d.world pc) .bsp).sumBits = d.sumBits := bsp_data_bits d _
    obtain ⟨memory_inv, grows⟩ := accessed_memory inv.memory (bootStep d.world pc).still .bsp
    have unoffered : (queues .tensors).accepted.length = 0 := by
      have offered := inv.counts.offered
      rw [here] at offered
      exact Nat.le_zero.mp offered
    have untaken : (bootStep d.world pc).ap.took = false := by
      rcases ap with ap | ap <;> simp [ap, ApPc.took]
    refine ⟨_, data_step_moves real, logs, memory_inv,
      after_still d (bootStep d.world pc) .bsp, ?_, ?_, ?_, ?_, ?_⟩
    · intro q
      rw [world, items_same traffic]
      exact inv.items q
    · rw [← world] at traffic
      refine flags_kept inv.flags (grows .bsp) (flags_same traffic) (fun _ => bits)
        traffic.apReady traffic.tensorComplete ?_ ?_
      · intro past
        rw [parked] at past
        cases past
      · intro returned completing
        rw [world] at completing
        rcases ap with ap | ap
        · rw [ap] at completing
          cases completing
        · rw [ap] at completing
          cases completing
    · rw [world]
      refine calls_kept inv.calls (fun q => Or.inl (booting_quiet here parked polling q).1)
        (fun q => Or.inl (booting_quiet here parked polling q).2) ?_
      intro polls
      have working := (inv.calls.polled polls).1
      rw [parked] at working
      cases working
    · rw [world]
      refine counts_kept inv.counts traffic.unsent ?_ (by rw [here]; exact Nat.zero_le _) ?_
      · rw [parked]
        rcases ap with ap | ap
        · rw [ap]
        · rw [ap]
          rfl
      · intro took
        rw [untaken] at took
        cases took
    · have heads := (inv.memory.queues .tensors).heads_length
      rw [unoffered] at heads
      rw [world]
      refine accesses_kept (accessed_accesses inv.accesses _ (Or.inl ⟨rfl, heads⟩))
        (fun _ _ => rfl) (fun _ => le_refl _) (fun _ _ => Or.inl) ?_
      intro took
      rw [parked] at took
      cases took
  · cases ran

theorem weak_finish (inv : WeakKernelInv k d logs) {report : Report m.batch.length}
    (here : d.world.bsp = .reporting report)
    (ran : weakKernelStep k (.own .bsp) = some k') : Moved k' d .bsp := by
  obtain ⟨memory, queues, cores, seen, polling, stored⟩ := k
  have same : cores = d.still := inv.cores
  subst same
  simp only [weakKernelStep, WeakKernel.ownNext, DataWorld.still, still_bsp, here] at ran
  split at ran
  · rename_i all
    have all : ¬ report.reports < m.batch.length := of_decide_eq_true all
    have moves : coreStep d.world.still .bsp =
        .moves { d.world.still with bsp := .finished report } := by
      simp only [coreStep, bspStep, still_bsp, here, if_neg all]
    have real : coreStep d.world .bsp = .moves { d.world with bsp := .finished report } := by
      simp only [coreStep, bspStep, here, if_neg all]
    have shown := data_step_moves real
    simp only [DataWorld.after, DataWorld.bspData, here] at shown
    rw [moves] at ran
    simp only [WeakKernel.accessed, ownAccess, DataWorld.after, DataWorld.bspData, still_bsp,
      here, Option.some.injEq] at ran
    subst ran
    refine ⟨_, shown, logs, inv.memory, rfl, ?_, ?_, ?_, ?_, ?_⟩
    · intro q
      rw [← inv.items q]
      cases q <;> rfl
    · refine flags_kept inv.flags (le_refl _) ?_ (fun _ => rfl) rfl rfl id inv.flags.completing
      intro f _
      cases f <;> rfl
    · refine calls_kept inv.calls ?_ ?_ inv.calls.polled
      · intro q
        cases q <;> simp [World.pushing, here]
      · intro q
        cases q <;> simp [World.popping, here, all]
    · exact counts_kept inv.counts rfl rfl (by rw [here]; exact Nat.le_refl _) id
    · exact accesses_kept inv.accesses (fun _ _ => rfl) (fun _ => le_refl _)
        (fun _ _ => Or.inl) id
  · cases ran

/-- What the AP does with the tensor touches nothing that the cores share
    through atomics. -/
theorem ap_own_moves (moves : coreStep w.still .ap = .moves next)
    (own : (∃ tensor, w.ap = .reducing tensor) ∨ ∃ physAddr, w.ap = .freeing physAddr) :
    ∃ real, coreStep w .ap = .moves real ∧ real.still = next ∧ SameTraffic w real ∧
      real.bsp = w.bsp ∧ real.ap.pastReducing = true ∧
        ∀ returned, real.ap = .completing returned → ∃ physAddr, w.ap = .freeing physAddr := by
  rcases own with ⟨tensor, here⟩ | ⟨physAddr, here⟩
  · simp only [coreStep, apStep, still_ap, here] at moves ⊢
    split at moves
    · cases moves
      exact ⟨_, rfl, rfl, ⟨rfl, rfl, rfl, rfl, rfl, rfl, rfl, rfl⟩, rfl, rfl, by rintro _ ⟨⟩⟩
    · cases moves
      exact ⟨_, rfl, rfl, ⟨rfl, rfl, rfl, rfl, rfl, rfl, rfl, rfl⟩, rfl, rfl, by rintro _ ⟨⟩⟩
  · have pmm : w.still.pmm = w.pmm := rfl
    simp only [coreStep, apStep, still_ap, here, pmm] at moves ⊢
    split at moves
    · cases moves
      exact ⟨_, rfl, rfl, ⟨rfl, rfl, rfl, rfl, rfl, rfl, rfl, rfl⟩, rfl, rfl, by rintro _ ⟨⟩⟩
    · cases moves
      exact ⟨_, rfl, rfl, ⟨rfl, rfl, rfl, rfl, rfl, rfl, rfl, rfl⟩, rfl, rfl,
        fun _ _ => ⟨physAddr, rfl⟩⟩

theorem past_reducing {pc : ApPc} (past : pc.pastReducing = true) :
    pc.owed = 0 ∧ pc.took = true := by
  cases pc <;> simp_all [ApPc.pastReducing, ApPc.owed, ApPc.took]

theorem tensor_quiet
    (own : (∃ tensor, w.ap = .reducing tensor) ∨ ∃ physAddr, w.ap = .freeing physAddr)
    (polling : Bool) : w.ap.took = true ∧ w.ap.owed = 0 ∧
      (∀ q, q.producer = .ap → w.pushing q = none) ∧
      ∀ q, q.consumer = .ap → w.popping polling q = false := by
  rcases own with ⟨_, here⟩ | ⟨_, here⟩
  all_goals
    refine ⟨by rw [here]; rfl, by rw [here]; rfl, ?_, ?_⟩
    · intro q own
      cases q <;> simp_all [World.pushing, QueueName.producer]
    · intro q own
      cases q <;> simp_all [World.popping, QueueName.consumer]

theorem weak_reduce (inv : WeakKernelInv k d logs)
    (own : (∃ tensor, d.world.ap = .reducing tensor) ∨ ∃ physAddr, d.world.ap = .freeing physAddr)
    (ran : weakKernelStep k (.own .ap) = some k') : Moved k' d .ap := by
  obtain ⟨memory, queues, cores, seen, polling, stored⟩ := k
  have same : cores = d.still := inv.cores
  subst same
  simp only [weakKernelStep] at ran
  split at ran
  · rename_i allowed
    split at ran
    · rename_i next moves
      cases ran
      obtain ⟨real, moved, rfl, traffic, bsp, past, completing⟩ := ap_own_moves moves own
      obtain ⟨took, owed, pushing, popping⟩ := tensor_quiet own polling
      obtain ⟨owes, takes⟩ := past_reducing past
      obtain ⟨memory_inv, grows⟩ := accessed_memory inv.memory real.still .ap
      have world := after_world d real .ap
      refine ⟨_, data_step_moves moved, logs, memory_inv, after_still d real .ap,
        ?_, ?_, ?_, ?_, ?_⟩
      · intro q
        rw [world, items_same traffic]
        exact inv.items q
      · rw [← world] at traffic
        refine flags_kept inv.flags (grows .bsp) (flags_same traffic) ?_ traffic.apReady
          traffic.tensorComplete (fun _ => by rw [world]; exact past) ?_
        · intro known
          rcases own with ⟨tensor, here⟩ | ⟨physAddr, here⟩
          · have before := inv.flags.stored_past known
            rw [here] at before
            cases before
          · simp only [DataWorld.after, DataWorld.apData, here]
        · intro returned completes
          rw [world] at completes
          obtain ⟨physAddr, here⟩ := completing returned completes
          simpa [WeakKernel.ownNext, DataWorld.still, here] using allowed
      · rw [world]
        refine calls_kept inv.calls ?_ ?_ ?_
        · intro q
          cases q with
          | completion => exact Or.inl (pushing .completion rfl)
          | _ => simp [World.pushing, bsp, traffic.unsent]
        · intro q
          cases q with
          | completion => simp [World.popping, bsp]
          | interCore => exact Or.inl (popping .interCore rfl)
          | tensors => exact Or.inl (popping .tensors rfl)
        · intro polls
          have working := (inv.calls.polled polls).1
          rw [working] at took
          cases took
      · rw [world]
        exact counts_kept inv.counts traffic.unsent (owes.trans owed.symm) (by rw [bsp])
          fun _ => took
      · rw [world]
        exact accesses_kept (accessed_accesses inv.accesses real.still (Or.inr ⟨rfl, took⟩))
          (fun _ _ => rfl) (fun _ => le_refl _) (fun _ _ => Or.inl) fun _ => takes
    all_goals cases ran
  · cases ran

end

/-- AP_PROCESSED wraps around. -/
theorem processed_bounded {w : World m} (reached : Reachable step (World.start m) w) :
    w.apProcessed < 2 ^ 64 := by
  apply kept_by_moves _ _ reached
  · exact Nat.two_pow_pos 64
  · intro w core next _ bounded moves
    cases core_move_cases moves with
    | inl move =>
      cases move with
      | booted pc later next here same => exact same.apProcessed ▸ bounded
      | bootFailed pc why held next here same => exact same.apProcessed ▸ bounded
      | _ => exact bounded
    | inr move =>
      cases move with
      | counted => exact Nat.mod_lt _ (Nat.two_pow_pos 64)
      | _ => exact bounded

end CellKernel
