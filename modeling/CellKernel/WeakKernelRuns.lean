import CellKernel.WeakKernelRealization

/-
Runs of the kernel over memory with release and acquire atomics. Whatever old
messages its loads return, it goes through states of the two cores over one
shared state, and no two of its accesses race.
-/
namespace CellKernel
open CellCore CellInterleaving CellQueue CellRuns CellTensor CellWeak ReleaseAcquire

variable {m : Machine} {bytes : Bytes} {k : WeakKernel m}

theorem weak_own {d : DataWorld m} (showing : Showing k d)
    (reached : Reachable dataStep (DataWorld.start m bytes) d) {core : Core} {k' : WeakKernel m}
    (ran : weakKernelStep k (.own core) = some k') : Moved k' d core := by
  obtain ⟨logs, inv⟩ := showing
  have cores := inv.cores
  cases core with
  | bsp =>
    cases bsp : d.world.bsp with
    | booting pc =>
      exact weak_boot inv bsp (parked_while_booting (data_run_projects reached) pc bsp) ran
    | reporting report => exact weak_finish inv bsp ran
    | _ => simp [weakKernelStep, WeakKernel.ownNext, cores, DataWorld.still, bsp] at ran
  | ap =>
    cases ap : d.world.ap with
    | reducing tensor => exact weak_reduce inv (Or.inl ⟨tensor, ap⟩) ran
    | freeing physAddr => exact weak_reduce inv (Or.inr ⟨physAddr, ap⟩) ran
    | _ => simp [weakKernelStep, WeakKernel.ownNext, cores, DataWorld.still, ap] at ran

theorem weak_kernel_step (fits : ∀ q : QueueName, q.cap m < 2 ^ 64) {d : DataWorld m}
    (showing : Showing k d) (reached : Reachable dataStep (DataWorld.start m bytes) d)
    {a : KernelAction} {k' : WeakKernel m} (ran : weakKernelStep k a = some k') :
    Showing k' d ∨ Moved k' d a.core := by
  have bounded := processed_bounded (data_run_projects reached)
  obtain ⟨logs, inv⟩ := showing
  cases a with
  | own core => exact Or.inr (weak_own ⟨logs, inv⟩ reached ran)
  | push q a => exact (weak_push fits inv ran).imp_left And.left
  | pop q a => exact (weak_pop fits inv ran).imp_left And.left
  | awaitAp time => exact (weak_await_ap inv ran).imp_left And.left
  | awaitTensor time => exact Or.inl (weak_await_tensor inv ran)
  | loadSum time => exact Or.inr (weak_load_sum inv ran)
  | announce time => exact Or.inr (weak_announce inv ran)
  | loadProcessed time => exact (weak_load_processed inv bounded ran).imp_left And.left
  | countProcessed time => exact Or.inr (weak_count_processed inv ran)
  | storeSum time => exact Or.inl (weak_store_sum inv ran)
  | complete time => exact Or.inr (weak_complete inv ran)

theorem weak_kernel_showing (fits : ∀ q : QueueName, q.cap m < 2 ^ 64)
    (reached : Reachable weakKernelStep (WeakKernel.start m bytes) k) :
    ∃ d, Reachable dataStep (DataWorld.start m bytes) d ∧ Showing k d := by
  apply holds_throughout _ _ reached
  · exact ⟨_, .start, _, weak_kernel_start m bytes⟩
  · rintro k a k' _ ⟨d, before, showing⟩ _ ran
    rcases weak_kernel_step fits showing before ran with stays | ⟨e, taken, moved⟩
    · exact ⟨d, before, stays⟩
    · exact ⟨e, .next a.core before trivial taken, moved⟩

theorem showing_shows {d : DataWorld m} (showing : Showing k d) : Shows k d := by
  obtain ⟨logs, inv⟩ := showing
  refine ⟨inv.cores, inv.items, ?_⟩
  intro f known
  obtain ⟨e, last, value⟩ := inv.flags.newest f known
  obtain ⟨there, none⟩ := newest_message (inv.memory.flags f) last
  exact ⟨e.1, e.2, there, value, none⟩

theorem two_packet_caps (q : QueueName) : q.cap (twoPacketMachine 2) < 2 ^ 64 := by
  cases q <;> decide

/-- On the way to k, a load has returned a message that was not the newest. -/
def LoadedStale (bytes : Bytes) (k : WeakKernel m) : Prop :=
  ∃ (before after : WeakKernel m) (a : KernelAction) (l : Atomic) (time later : Nat),
    Reachable weakKernelStep (WeakKernel.start m bytes) before ∧
      a.loads = some (l, time) ∧ time < later ∧ before.memory.messages l later ≠ none ∧
      weakKernelStep before a = some after ∧ Reachable weakKernelStep after k

/-- The BSP may go on reading AP_READY as it was before the AP has raised it. -/
theorem await_ap_stale (reached : Reachable weakKernelStep (WeakKernel.start m bytes) k)
    {d : DataWorld m} (showing : Showing k d) {tensor : TensorChunk .ready}
    (bsp : d.world.bsp = .awaitingAp tensor) (ap : d.world.ap = .starting)
    (unready : d.world.apReady = false) :
    ∃ k' e, dataStep d .ap = some e ∧ Showing k' e ∧ LoadedStale bytes k' := by
  obtain ⟨logs, inv⟩ := showing
  obtain ⟨e, last, value⟩ := inv.flags.newest .apReady (by rintro ⟨⟩)
  obtain ⟨memory, put⟩ := store_next (inv.memory.flags .apReady) last .ap .release 1
  obtain ⟨newer, memory', loaded⟩ :=
    load_old (inv.memory.flags .apReady) last (by decide : Core.bsp ≠ .ap) put .acquire
  have starting : k.cores.world.ap = .starting := by
    rw [inv.cores]
    exact ap
  have awaiting : k.cores.world.bsp = .awaitingAp tensor := by
    rw [inv.cores]
    exact bsp
  have zero : e.2.value = 0 := by
    rw [value]
    simp [DataWorld.flag, unready]
  have announced : weakKernelStep k (.announce (e.1 + 1)) =
      some { k with memory := memory, cores := k.cores.apAt .working } := by
    simp only [weakKernelStep, starting, put, Option.map_some]
  have awaited : weakKernelStep { k with memory := memory, cores := k.cores.apAt .working }
      (.awaitAp e.1) = some { k with memory := memory', cores := k.cores.apAt .working } := by
    simp only [weakKernelStep, DataWorld.apAt, awaiting, loaded, Option.map_some, zero, if_true]
  obtain ⟨raised, taken, logs', inv'⟩ := weak_announce inv announced
  have cores : k.cores.apAt .working = raised.still := inv'.cores
  rw [cores] at inv' announced awaited
  exact ⟨_, raised, taken, ⟨logs', load_waits inv' (load_frame loaded)⟩, _, _, .awaitAp e.1,
    .flag .apReady, e.1, e.1 + 1, .next _ reached trivial announced, rfl, Nat.lt_succ_self _,
    newer, awaited, .start⟩

theorem stale_later {k' : WeakKernel m} (stale : LoadedStale bytes k)
    (reached : Reachable weakKernelStep k k') : LoadedStale bytes k' := by
  obtain ⟨before, after, a, l, time, later, upto, loads, older, newer, ran, goesOn⟩ := stale
  exact ⟨before, after, a, l, time, later, upto, loads, older, newer, ran,
    reaches_trans goesOn reached⟩

theorem stale_reachable (stale : LoadedStale bytes k) :
    Reachable weakKernelStep (WeakKernel.start m bytes) k := by
  obtain ⟨before, after, a, _, _, _, upto, _, _, _, ran, goesOn⟩ := stale
  exact reaches_trans (.next a upto trivial ran) goesOn

/-- The AP has both packets behind it and is about to read the tensor; the BSP
    has read AP_READY once too often as 0. -/
theorem two_packet_tensor_taken :
    ∃ (b : Boot (twoPacketMachine 2)) (k : WeakKernel (twoPacketMachine 2)),
      LoadedStale (fun _ => 0) k ∧ k.cores.world.ap = .reducing b.tensor := by
  obtain ⟨b⟩ := two_packet_boot 2
  obtain ⟨d, lifted, launched⟩ :=
    data_run_lifts (d := DataWorld.start _ fun _ => 0) b.launched_reachable
  obtain ⟨k, realized, showing⟩ :=
    run_realized two_packet_caps (by decide) ⟨_, weak_kernel_start _ _⟩ .start lifted
  have bsp : d.world.bsp = .awaitingAp b.tensor := by rw [launched]; rfl
  have ap : d.world.ap = .starting := by rw [launched]; rfl
  obtain ⟨k', e, taken, showing', stale⟩ :=
    await_ap_stale realized showing bsp ap (by rw [launched]; rfl)
  have announced : e.world = { b.launched with apReady := true, ap := .working } := by
    have moves : coreStep d.world .ap =
        .moves { b.launched with apReady := true, ap := .working } := by
      rw [launched]
      rfl
    rw [data_step_moves moves] at taken
    cases taken
    exact after_world ..
  obtain ⟨last, later, same⟩ := data_run_lifts (announced ▸ announced_reduces b)
  obtain ⟨k'', goesOn, logs, inv⟩ := run_realized two_packet_caps (by decide) showing'
    (.next .ap lifted trivial taken) later
  refine ⟨b, k'', stale_later stale goesOn, ?_⟩
  rw [inv.cores]
  exact congrArg World.ap same

theorem two_packet_end : ∃ (_ : Boot (twoPacketMachine 2)) (k : WeakKernel _) (report : Report 2),
    Reachable weakKernelStep (WeakKernel.start (twoPacketMachine 2) fun _ => 0) k ∧
      k.cores.world.bsp = .finished report ∧ k.cores.world.ap = .finished := by
  obtain ⟨b⟩ := two_packet_boot 2
  obtain ⟨w, reached, ⟨report, bsp⟩, ap⟩ :=
    end_reachable b (by decide) (by decide) (by decide) (by decide) .start
  obtain ⟨d, lifted, rfl⟩ := data_run_lifts (d := DataWorld.start _ fun _ => 0) reached
  obtain ⟨k, realized, logs, inv⟩ :=
    run_realized two_packet_caps (by decide) ⟨_, weak_kernel_start _ _⟩ .start lifted
  refine ⟨b, k, report, realized, ?_⟩
  rw [inv.cores]
  exact ⟨bsp, ap⟩

/-- Every state of the kernel over release and acquire memory shows one that the
    two cores reach over a single shared state, and every access to memory is
    one step of a core there, or none. -/
theorem weak_kernel_refines (fits : ∀ q : QueueName, q.cap m < 2 ^ 64)
    (reached : Reachable weakKernelStep (WeakKernel.start m bytes) k) :
    ∃ d, Reachable dataStep (DataWorld.start m bytes) d ∧ Shows k d ∧
      ∀ a k', weakKernelStep k a = some k' →
        ∃ e, (e = d ∨ ∃ core, dataStep d core = some e) ∧ Shows k' e := by
  obtain ⟨d, shown, showing⟩ := weak_kernel_showing fits reached
  refine ⟨d, shown, showing_shows showing, ?_⟩
  intro a k' ran
  rcases weak_kernel_step fits showing shown ran with stays | ⟨e, taken, moved⟩
  · exact ⟨d, Or.inl rfl, showing_shows stays⟩
  · exact ⟨e, Or.inr ⟨a.core, taken⟩, showing_shows moved⟩

theorem weak_kernel_refines_tensor_taken :
    ∃ (k : WeakKernel (twoPacketMachine 2)) (d : DataWorld (twoPacketMachine 2)) (tensor : _),
      Reachable weakKernelStep (WeakKernel.start _ fun _ => 0) k ∧ LoadedStale (fun _ => 0) k ∧
        Reachable dataStep (DataWorld.start _ fun _ => 0) d ∧ d.world.ap = .reducing tensor ∧
        Shows k d := by
  obtain ⟨b, k, stale, here⟩ := two_packet_tensor_taken
  have reached := stale_reachable stale
  obtain ⟨d, shown, shows, _⟩ := weak_kernel_refines two_packet_caps reached
  have ap : k.cores.world.ap = d.still.world.ap := by rw [shows.cores]
  exact ⟨k, d, b.tensor, reached, stale, shown, ap.symm.trans here, shows⟩

/-- No access that is about to be made races with an earlier one: not in a slot,
    which a push finds empty and a pop finds filled with the oldest item, not
    in the frame allocator, and not in the tensor. -/
theorem weak_kernel_excludes_races (fits : ∀ q : QueueName, q.cap m < 2 ^ 64)
    (reached : Reachable weakKernelStep (WeakKernel.start m bytes) k) :
    (∀ q item head, (k.queues q).pusher = .admitted item head →
      ¬ k.memory.Races q.producer (.slot q (slotIndex (q.cap m) head)) true ∧
        (k.queues q).buffer[slotIndex (q.cap m) head]? = some none) ∧
    (∀ q tail, (k.queues q).popper = .admitted tail →
      ¬ k.memory.Races q.consumer (.slot q (slotIndex (q.cap m) tail)) false ∧
        ∃ oldest, (k.queues q).held.head? = some oldest ∧
          (k.queues q).buffer[slotIndex (q.cap m) tail]? = some (some oldest)) ∧
    ∀ core next c writes, k.ownNext core = true → coreStep k.cores.world core = .moves next →
      ownAccess k.cores.world next core = some (c, writes) →
        ¬ k.memory.Races core c writes := by
  obtain ⟨d, shown, logs, inv⟩ := weak_kernel_showing fits reached
  refine ⟨?_, ?_, ?_⟩
  · intro q item head here
    have ring := inv.memory.queues q
    have range := in_range inv.memory inv.counts q
    exact ⟨write_ordered (fits q) ring range here, write_blank (fits q) ring range here⟩
  · intro q tail here
    have ring := inv.memory.queues q
    obtain ⟨oldest, next, _, held⟩ := read_oldest ring here
    refine ⟨read_ordered (fits q) ring (in_range inv.memory inv.counts q) here, oldest, ?_, held⟩
    rw [Ring.held, List.head?_drop]
    exact next
  · intro core next c writes own _ accessed
    have outside := own_access_outside accessed
    have cores := inv.cores
    cases core with
    | bsp =>
      cases bsp : d.world.bsp with
      | booting pc =>
        have parked := parked_while_booting (data_run_projects shown) pc bsp
        exact accesses_own inv.accesses parked outside writes
      | _ => simp [ownAccess, cores, DataWorld.still, bsp] at accessed
    | ap =>
      have took : d.world.ap.took = true := by
        cases ap : d.world.ap with
        | reducing tensor => rfl
        | freeing physAddr => rfl
        | _ => simp [ownAccess, cores, DataWorld.still, ap] at accessed
      exact accesses_ordered inv.memory inv.counts inv.accesses took outside writes

theorem weak_kernel_excludes_races_tensor : ∃ (k : WeakKernel (twoPacketMachine 2)) (tensor : _),
    Reachable weakKernelStep (WeakKernel.start _ fun _ => 0) k ∧ LoadedStale (fun _ => 0) k ∧
      k.cores.world.ap = .reducing tensor ∧ ¬ k.memory.Races .ap .tensor false := by
  obtain ⟨b, k, stale, here⟩ := two_packet_tensor_taken
  have reached := stale_reachable stale
  obtain ⟨_, _, own⟩ := weak_kernel_excludes_races two_packet_caps reached
  have moves : coreStep k.cores.world .ap =
      .moves { k.cores.world with ap := .freeing b.frame.address } := by
    simp only [coreStep, apStep, here, b.tensor_reads]
    rfl
  refine ⟨k, b.tensor, reached, stale, here, own .ap _ _ _ ?_ moves ?_⟩
  · simp only [WeakKernel.ownNext, here]
  · simp only [ownAccess, here]

/-- Whatever a run has done, every run over one shared state that goes on from
    what it shows is one over release and acquire memory too. -/
theorem weak_kernel_realizes (fits : ∀ q : QueueName, q.cap m < 2 ^ 64) (room : 0 < m.tensorCap)
    (reached : Reachable weakKernelStep (WeakKernel.start m bytes) k) :
    ∃ d, Reachable dataStep (DataWorld.start m bytes) d ∧ Shows k d ∧
      ∀ e, Reachable dataStep d e → ∃ k', Reachable weakKernelStep k k' ∧ Shows k' e := by
  obtain ⟨d, shown, showing⟩ := weak_kernel_showing fits reached
  refine ⟨d, shown, showing_shows showing, ?_⟩
  intro e later
  obtain ⟨k', goesOn, showing'⟩ := run_realized fits room showing shown later
  exact ⟨k', goesOn, showing_shows showing'⟩

theorem weak_kernel_realizes_tensor_taken :
    ∃ (k : WeakKernel (twoPacketMachine 2)) (d : DataWorld (twoPacketMachine 2)) (tensor : _),
      Reachable weakKernelStep (WeakKernel.start _ fun _ => 0) k ∧ LoadedStale (fun _ => 0) k ∧
        k.cores.world.ap = .reducing tensor ∧ Shows k d ∧
        ∀ e, Reachable dataStep d e → ∃ k', Reachable weakKernelStep k k' ∧ Shows k' e := by
  obtain ⟨b, k, stale, here⟩ := two_packet_tensor_taken
  have reached := stale_reachable stale
  obtain ⟨d, _, shows, goesOn⟩ := weak_kernel_realizes two_packet_caps (by decide) reached
  exact ⟨k, d, b.tensor, reached, stale, here, shows, goesOn⟩

/-- The batch over release and acquire memory: no payload is lost, duplicated or
    reordered on the way through the published items of the queues, each gets the
    answer that the rule gives for what it was built of, and the BSP reads the
    exact sum of the tensor. -/
theorem weak_kernel_conserves (fits : ∀ q : QueueName, q.cap m < 2 ^ 64) (f : Frames m)
    (room : 0 < m.tensorCap) (reached : Reachable weakKernelStep (WeakKernel.start m bytes) k) :
    (∃ reported waiting,
      m.batch = reported ++ waiting ++ k.cores.world.ap.held ++ (k.queues .interCore).held ++
          k.cores.world.unsent ∧
        k.cores.world.reported = reported.map workResult ∧
        (k.queues .completion).held = waiting.map workResult) ∧
      (∀ report, k.cores.world.bsp = .finished report →
        k.cores.world.reported = m.batch.map workResult ∧ Accounted report k.cores.world.reported ∧
          k.cores.tensorSum = some (asF32 TENSOR_ELEMENTS.toNat)) ∧
      (∀ shown, k.cores.verdict = some shown → shown = true) ∧
      ∀ inputs, List.Forall₂ (fun sent raw => RawPayload.new sent.1 sent.2 = .ok raw)
        inputs m.batch → k.cores.world.reported =
          (inputs.take k.cores.world.reported.length).map answer := by
  obtain ⟨d, shown, logs, inv⟩ := weak_kernel_showing fits reached
  have projected := data_run_projects shown
  have data := data_invariant f room shown
  rw [inv.cores]
  refine ⟨?_, ?_, data.verdict, fun inputs built => reported_answers projected built⟩
  · obtain ⟨reported, waiting, conserved⟩ := reachable_conserved projected
    have interCore : d.world.interCore.items = (k.queues .interCore).held := inv.items .interCore
    have completion : d.world.completion.items = (k.queues .completion).held :=
      inv.items .completion
    refine ⟨reported, waiting, ?_, conserved.results, ?_⟩
    · rw [← interCore]
      exact conserved.batch
    · rw [← completion]
      exact conserved.completion
  · intro report here
    obtain ⟨reported, accounted, _⟩ := finished_reports_batch projected here
    have knows := data.bsp
    rw [show d.world.bsp = .finished report from here] at knows
    obtain ⟨sum, shown⟩ := Option.ne_none_iff_exists'.mp knows.2
    exact ⟨reported, accounted, shown.trans (congrArg some (data.tensorSum sum shown))⟩

theorem weak_kernel_conserves_at_end : ∃ k : WeakKernel (twoPacketMachine 2),
    Reachable weakKernelStep (WeakKernel.start _ fun _ => 0) k ∧
      k.cores.world.reported = (twoPacketMachine 2).batch.map workResult ∧
      k.cores.tensorSum = some (asF32 TENSOR_ELEMENTS.toNat) := by
  obtain ⟨b, k, report, reached, here, _⟩ := two_packet_end
  obtain ⟨_, finished, _⟩ := weak_kernel_conserves two_packet_caps b.toFrames (by decide) reached
  obtain ⟨reported, _, sum⟩ := finished report here
  exact ⟨k, reached, reported, sum⟩

/-- No run over release and acquire memory gets stuck: whatever its loads have
    returned so far, it can go on to the end of both cores. -/
theorem weak_kernel_can_end (b : Boot m) (fits : ∀ q : QueueName, q.cap m < 2 ^ 64)
    (inter : 0 < m.interCap) (room : 0 < m.tensorCap) (holds : m.batch.length ≤ m.completionCap)
    (small : m.batch.length < 2 ^ 31)
    (reached : Reachable weakKernelStep (WeakKernel.start m bytes) k) :
    ∃ k' report, Reachable weakKernelStep k k' ∧ k'.cores.world.bsp = .finished report ∧
      k'.cores.world.ap = .finished ∧ k'.cores.world.reported = m.batch.map workResult ∧
        k'.cores.verdict = some true := by
  obtain ⟨d, shown, showing⟩ := weak_kernel_showing fits reached
  obtain ⟨w, ran, ⟨report, bsp⟩, ap⟩ :=
    end_reachable b inter room holds small (data_run_projects shown)
  obtain ⟨e, later, rfl⟩ := data_run_lifts ran
  have whole := reaches_trans shown later
  obtain ⟨k', goesOn, logs, inv⟩ := run_realized fits room showing shown later
  have knows := (data_invariant b.toFrames room whole).ap
  rw [ap] at knows
  refine ⟨k', report, goesOn, ?_⟩
  rw [inv.cores]
  exact ⟨bsp, ap, (finished_reports_batch (data_run_projects whole) bsp).1, knows.2⟩

theorem weak_kernel_can_end_tensor_taken :
    ∃ (k k' : WeakKernel (twoPacketMachine 2)) (tensor : _),
      Reachable weakKernelStep (WeakKernel.start _ fun _ => 0) k ∧ LoadedStale (fun _ => 0) k ∧
        k.cores.world.ap = .reducing tensor ∧ Reachable weakKernelStep k k' ∧
        k'.cores.world.reported = (twoPacketMachine 2).batch.map workResult := by
  obtain ⟨b, k, stale, here⟩ := two_packet_tensor_taken
  have reached := stale_reachable stale
  obtain ⟨k', _, goesOn, _, _, reported, _⟩ := weak_kernel_can_end b two_packet_caps (by decide)
    (by decide) (by decide) (by decide) reached
  exact ⟨k, k', b.tensor, reached, stale, here, goesOn, reported⟩

end CellKernel
