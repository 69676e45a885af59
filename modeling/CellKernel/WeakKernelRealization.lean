import CellKernel.WeakKernelCalls
import CellKernel.WeakKernelFlags

/-
Every run of the two cores over one shared state is a run over release and
acquire memory, in which each load returns the newest message.
-/
namespace CellKernel
open CellCore CellFifo CellInterleaving CellQueue CellRuns CellTensor CellWeak ReleaseAcquire

variable {m : Machine} {bytes : Bytes} {k : WeakKernel m} {d : DataWorld m} {q : QueueName}

/-- The core alone goes on to a state that shows its step. -/
def Realized (k : WeakKernel m) (d : DataWorld m) (core : Core) : Prop :=
  ∃ k', Reaches weakKernelStep (fun _ a => a.core = core) k k' ∧ Moved k' d core

theorem realized_by {k' : WeakKernel m} {a : KernelAction} {core : Core}
    (ran : weakKernelStep k a = some k') (own : a.core = core) (moved : Moved k' d core) :
    Realized k d core :=
  ⟨k', .next a .start own ran, moved⟩

theorem realized_after {k' : WeakKernel m} {a : KernelAction} {core : Core}
    (ran : weakKernelStep k a = some k') (own : a.core = core) (later : Realized k' d core) :
    Realized k d core := by
  obtain ⟨last, reached, moved⟩ := later
  exact ⟨last, reaches_trans (.next a .start own ran) reached, moved⟩

theorem push_runs {item : q.Item} (here : k.cores.world.pushing q = some item) {a : PushAccess}
    {memory : KernelMemory} {queue : Ring Core Atomic q.Item (q.cap m)}
    (ran : pushStep q.place k.memory (k.queues q) (a.pushing item) = some (memory, queue)) :
    ∃ k', weakKernelStep k (.push q a) = some k' ∧ k'.queues q = queue := by
  simp only [weakKernelStep, here, ran, Option.map_some]
  exact ⟨_, rfl, Function.update_self ..⟩

theorem pop_runs (here : k.cores.world.popping k.polling q = true) {a : PopAction q.Item}
    {memory : KernelMemory} {queue : Ring Core Atomic q.Item (q.cap m)}
    (ran : popStep q.place k.memory (k.queues q) a = some (memory, queue)) :
    ∃ k', weakKernelStep k (.pop q a) = some k' ∧ k'.queues q = queue := by
  simp only [weakKernelStep, here, if_true, ran, Option.map_some]
  exact ⟨_, rfl, Function.update_self ..⟩

theorem push_realized (fits : ∀ q : QueueName, q.cap m < 2 ^ 64) (showing : Showing k d)
    {item : q.Item} (here : d.world.pushing q = some item)
    (room : (d.world.items q).length < q.cap m) : Realized k d q.producer := by
  induction left : (k.queues q).pusher.left using Nat.strongRecOn generalizing k with
  | ind steps ih =>
    obtain ⟨logs, inv⟩ := showing
    have pushing : k.cores.world.pushing q = some item := by
      rw [inv.cores]
      exact (still_pushing d.world q).trans here
    rw [inv.items q] at room
    obtain ⟨a, memory, queue, stepped, advanced⟩ :=
      push_advances (fits q) (inv.memory.queues q) item room
    obtain ⟨k', ran, same⟩ := push_runs pushing stepped
    rcases weak_push fits inv ran with ⟨stays, accepted⟩ | moved
    · rw [same] at accepted
      have lower := advanced.resolve_left fun other => other accepted
      rw [← same, left] at lower
      exact realized_after ran rfl (ih _ lower stays rfl)
    · exact realized_by ran rfl moved

theorem pop_realized (fits : ∀ q : QueueName, q.cap m < 2 ^ 64) (showing : Showing k d)
    (here : d.world.popping k.polling q = true) (held : d.world.items q ≠ []) :
    Realized k d q.consumer := by
  induction left : (k.queues q).popper.left using Nat.strongRecOn generalizing k with
  | ind steps ih =>
    obtain ⟨logs, inv⟩ := showing
    have popping : k.cores.world.popping k.polling q = true := by
      rw [inv.cores]
      exact (still_popping d.world k.polling q).trans here
    rw [inv.items q] at held
    obtain ⟨a, memory, queue, stepped, advanced⟩ :=
      pop_advances (fits q) (inv.memory.queues q) held
    obtain ⟨k', ran, same⟩ := pop_runs popping stepped
    rcases weak_pop fits inv ran with ⟨stays, returned⟩ | moved
    · rw [same] at returned
      have lower := advanced.resolve_left fun other => other returned
      have under := (lowered_running lower).1
      rw [← same] at under
      rw [← same, left] at lower
      obtain ⟨later, kept⟩ := stays
      exact realized_after ran rfl (ih _ lower ⟨later, kept⟩ (kept.calls.popping q under) rfl)
    · exact realized_by ran rfl moved

theorem completion_realized (fits : ∀ q : QueueName, q.cap m < 2 ^ 64) (showing : Showing k d)
    {report : Report m.batch.length} (here : d.world.bsp = .reporting report)
    (more : report.reports < m.batch.length) {result : WorkResult}
    {completion : Fifo WorkResult m.completionCap}
    (popped : d.world.completion.pop = some (result, completion)) : Realized k d .bsp := by
  have popping : d.world.popping k.polling .completion = true := by
    simp only [World.popping, here]
    exact decide_eq_true more
  have held : d.world.items .completion ≠ [] := by
    rw [World.items, (pop_some_iff _ _ _).mp popped]
    exact List.cons_ne_nil _ _
  exact pop_realized fits showing popping held

theorem await_ap_realized (showing : Showing k d) {tensor : TensorChunk .ready}
    (bsp : d.world.bsp = .awaitingAp tensor) (ready : d.world.apReady = true) :
    Realized k d .bsp := by
  obtain ⟨logs, inv⟩ := showing
  obtain ⟨e, last, value⟩ := inv.flags.newest .apReady (by rintro ⟨⟩)
  obtain ⟨memory, loaded⟩ := load_last (inv.memory.flags .apReady) last .bsp .acquire
  have here : k.cores.world.bsp = .awaitingAp tensor := by
    rw [inv.cores]
    exact bsp
  have nonzero : ¬ e.2.value = 0 := by
    rw [value]
    simp [DataWorld.flag, ready]
  have ran : weakKernelStep k (.awaitAp e.1) =
      some { k with memory := memory, cores := k.cores.bspAt (.sending tensor) } := by
    simp only [weakKernelStep, here, loaded, Option.map_some, if_neg nonzero]
  rcases weak_await_ap inv ran with ⟨_, same⟩ | moved
  · have kept : k.cores.world.bsp = .sending tensor := by
      rw [← same]
      rfl
    rw [here] at kept
    cases kept
  · exact realized_by ran rfl moved

theorem await_tensor_realized (showing : Showing k d) (bsp : d.world.bsp = .awaitingTensor)
    (complete : d.world.tensorComplete = true) : Realized k d .bsp := by
  suffices loads : ∀ k, Showing k d → k.seen = true → Realized k d .bsp by
    by_cases known : k.seen = true
    · exact loads k showing known
    · obtain ⟨logs, inv⟩ := showing
      obtain ⟨e, last, value⟩ := inv.flags.newest .tensorComplete (by rintro ⟨⟩)
      obtain ⟨memory, loaded⟩ := load_last (inv.memory.flags .tensorComplete) last .bsp .acquire
      have here : k.cores.world.bsp = .awaitingTensor := by
        rw [inv.cores]
        exact bsp
      have raised : e.2.value = 1 := by
        rw [value]
        simp [DataWorld.flag, complete]
      have ran : weakKernelStep k (.awaitTensor e.1) =
          some { k with memory := memory, seen := true } := by
        simp only [weakKernelStep, here, Bool.eq_false_iff.mpr known, loaded, Option.map_some,
          raised]
        rfl
      exact realized_after ran rfl (loads _ (weak_await_tensor inv ran) rfl)
  intro k showing known
  obtain ⟨logs, inv⟩ := showing
  obtain ⟨e, last⟩ := published_last (inv.memory.flags .tensorSumBits)
  obtain ⟨memory, loaded⟩ := load_last (inv.memory.flags .tensorSumBits) last .bsp .acquire
  have here : k.cores.world.bsp = .awaitingTensor := by
    rw [inv.cores]
    exact bsp
  have ran : ∃ k', weakKernelStep k (.loadSum e.1) = some k' := by
    simp only [weakKernelStep, here, known, loaded, Option.map_some]
    exact ⟨_, rfl⟩
  obtain ⟨k', ran⟩ := ran
  exact realized_by ran rfl (weak_load_sum inv ran)

theorem announce_realized (showing : Showing k d) (ap : d.world.ap = .starting) :
    Realized k d .ap := by
  obtain ⟨logs, inv⟩ := showing
  obtain ⟨e, last⟩ := published_last (inv.memory.flags .apReady)
  obtain ⟨memory, put⟩ := store_next (inv.memory.flags .apReady) last .ap .release 1
  have here : k.cores.world.ap = .starting := by
    rw [inv.cores]
    exact ap
  have ran : ∃ k', weakKernelStep k (.announce (e.1 + 1)) = some k' := by
    simp only [weakKernelStep, here, put, Option.map_some]
    exact ⟨_, rfl⟩
  obtain ⟨k', ran⟩ := ran
  exact realized_by ran rfl (weak_announce inv ran)

theorem load_processed_runs (showing : Showing k d) (bounded : d.world.apProcessed < 2 ^ 64)
    (ap : d.world.ap = .working) (unpolled : k.polling = false) :
    ∃ a k', weakKernelStep k a = some k' ∧ a.core = .ap ∧
      ((Showing k' d ∧ k'.polling = true) ∨ Moved k' d .ap) := by
  obtain ⟨logs, inv⟩ := showing
  obtain ⟨e, last⟩ := published_last (inv.memory.flags .apProcessed)
  obtain ⟨memory, loaded⟩ := load_last (inv.memory.flags .apProcessed) last .ap .relaxed
  have here : k.cores.world.ap = .working := by
    rw [inv.cores]
    exact ap
  have ran : ∃ k', weakKernelStep k (.loadProcessed e.1) = some k' := by
    simp only [weakKernelStep, here, unpolled, loaded, Option.map_some]
    exact ⟨_, rfl⟩
  obtain ⟨k', ran⟩ := ran
  exact ⟨_, k', ran, rfl, weak_load_processed inv bounded ran⟩

theorem take_realized (fits : ∀ q : QueueName, q.cap m < 2 ^ 64) (showing : Showing k d)
    (bounded : d.world.apProcessed < 2 ^ 64) (ap : d.world.ap = .working)
    (held : d.world.items .interCore ≠ []) : Realized k d .ap := by
  have pops : ∀ k, Showing k d → k.polling = true → Realized k d .ap := by
    intro k showing polling
    have here : d.world.popping k.polling .interCore = true := by
      simp only [World.popping, ap, polling]
    exact pop_realized fits showing here held
  by_cases polled : k.polling = true
  · exact pops k showing polled
  · obtain ⟨a, k', ran, own, stays | moved⟩ :=
      load_processed_runs showing bounded ap (Bool.eq_false_iff.mpr polled)
    · exact realized_after ran own (pops k' stays.1 stays.2)
    · exact realized_by ran own moved

theorem batch_done_realized (showing : Showing k d) (bounded : d.world.apProcessed < 2 ^ 64)
    (ap : d.world.ap = .working) (all : ¬ d.world.apProcessed < m.batch.length) :
    Realized k d .ap := by
  have unpolled : ∀ k, Showing k d → k.polling = false := by
    rintro k ⟨logs, inv⟩
    by_contra polling
    exact all (inv.calls.polled (Bool.not_eq_false _ ▸ polling)).2
  obtain ⟨a, k', ran, own, ⟨stays, polls⟩ | moved⟩ :=
    load_processed_runs showing bounded ap (unpolled k showing)
  · rw [unpolled k' stays] at polls
    cases polls
  · exact realized_by ran own moved

theorem count_realized (showing : Showing k d) (ap : d.world.ap = .counting) :
    Realized k d .ap := by
  obtain ⟨logs, inv⟩ := showing
  obtain ⟨e, last⟩ := published_last (inv.memory.flags .apProcessed)
  obtain ⟨memory, changed⟩ := exchange_last (inv.memory.flags .apProcessed) last .ap .relaxed
    .release (· + 1)
  have here : k.cores.world.ap = .counting := by
    rw [inv.cores]
    exact ap
  have ran : ∃ k', weakKernelStep k (.countProcessed e.1) = some k' := by
    simp only [weakKernelStep, here, changed, Option.map_some]
    exact ⟨_, rfl⟩
  obtain ⟨k', ran⟩ := ran
  exact realized_by ran rfl (weak_count_processed inv ran)

theorem complete_realized (showing : Showing k d) {returned : Bool}
    (ap : d.world.ap = .completing returned) : Realized k d .ap := by
  obtain ⟨logs, inv⟩ := showing
  obtain ⟨e, last⟩ := published_last (inv.memory.flags .tensorComplete)
  obtain ⟨memory, put⟩ := store_next (inv.memory.flags .tensorComplete) last .ap .release 1
  have here : k.cores.world.ap = .completing returned := by
    rw [inv.cores]
    exact ap
  have ran : ∃ k', weakKernelStep k (.complete (e.1 + 1)) = some k' := by
    simp only [weakKernelStep, here, put, Option.map_some]
    exact ⟨_, rfl⟩
  obtain ⟨k', ran⟩ := ran
  exact realized_by ran rfl (weak_complete inv ran)

theorem own_runs {core : Core} (own : k.ownNext core = true) {next : World m}
    (moves : coreStep k.cores.world core = .moves next) :
    ∃ k', weakKernelStep k (.own core) = some k' := by
  simp only [weakKernelStep, own, if_true, moves]
  exact ⟨_, rfl⟩

theorem boot_realized (showing : Showing k d) {pc : BootPc} (bsp : d.world.bsp = .booting pc)
    (parked : d.world.ap = .parked) : Realized k d .bsp := by
  obtain ⟨logs, inv⟩ := showing
  have here : k.cores.world.bsp = .booting pc := by
    rw [inv.cores]
    exact bsp
  have own : k.ownNext .bsp = true := by
    simp only [WeakKernel.ownNext, here]
  have moves : coreStep k.cores.world .bsp = .moves (bootStep k.cores.world pc) := by
    simp only [coreStep, bspStep, here]
  obtain ⟨k', ran⟩ := own_runs own moves
  exact realized_by ran rfl (weak_boot inv bsp parked ran)

theorem finish_realized (showing : Showing k d) {report : Report m.batch.length}
    (bsp : d.world.bsp = .reporting report) (all : ¬ report.reports < m.batch.length) :
    Realized k d .bsp := by
  obtain ⟨logs, inv⟩ := showing
  have here : k.cores.world.bsp = .reporting report := by
    rw [inv.cores]
    exact bsp
  have own : k.ownNext .bsp = true := by
    simp only [WeakKernel.ownNext, here]
    exact decide_eq_true all
  have moves : coreStep k.cores.world .bsp =
      .moves { k.cores.world with bsp := .finished report } := by
    simp only [coreStep, bspStep, here, if_neg all]
  obtain ⟨k', ran⟩ := own_runs own moves
  exact realized_by ran rfl (weak_finish inv bsp ran)

theorem reduce_realized (showing : Showing k d) {tensor : TensorChunk .ready}
    (ap : d.world.ap = .reducing tensor) : Realized k d .ap := by
  obtain ⟨logs, inv⟩ := showing
  have here : k.cores.world.ap = .reducing tensor := by
    rw [inv.cores]
    exact ap
  have own : k.ownNext .ap = true := by
    simp only [WeakKernel.ownNext, here]
  have moves : ∃ next, coreStep k.cores.world .ap = .moves next := by
    simp only [coreStep, apStep, here]
    split <;> exact ⟨_, rfl⟩
  obtain ⟨next, moves⟩ := moves
  obtain ⟨k', ran⟩ := own_runs own moves
  exact realized_by ran rfl (weak_reduce inv (Or.inl ⟨tensor, ap⟩) ran)

theorem free_realized (showing : Showing k d) {physAddr : UInt64}
    (ap : d.world.ap = .freeing physAddr) : Realized k d .ap := by
  have here : ∀ k, Showing k d → k.cores.world.ap = .freeing physAddr := by
    rintro k ⟨logs, inv⟩
    rw [inv.cores]
    exact ap
  have frees : ∀ k, Showing k d → k.stored = true → Realized k d .ap := by
    intro k showing stored
    have freeing := here k showing
    have own : k.ownNext .ap = true := by
      simp only [WeakKernel.ownNext, freeing, stored]
    have moves : ∃ next, coreStep k.cores.world .ap = .moves next := by
      simp only [coreStep, apStep, freeing]
      split <;> exact ⟨_, rfl⟩
    obtain ⟨next, moves⟩ := moves
    obtain ⟨k', ran⟩ := own_runs own moves
    obtain ⟨logs, inv⟩ := showing
    exact realized_by ran rfl (weak_reduce inv (Or.inr ⟨physAddr, ap⟩) ran)
  by_cases known : k.stored = true
  · exact frees k showing known
  · have freeing := here k showing
    obtain ⟨logs, inv⟩ := showing
    obtain ⟨e, last⟩ := published_last (inv.memory.flags .tensorSumBits)
    obtain ⟨memory, put⟩ := store_next (inv.memory.flags .tensorSumBits) last .ap .release
      k.cores.sumBits
    have ran : weakKernelStep k (.storeSum (e.1 + 1)) =
        some { k with memory := memory, stored := true } := by
      simp only [weakKernelStep, freeing, Bool.eq_false_iff.mpr known, put, Option.map_some]
    exact realized_after ran rfl (frees _ (weak_store_sum inv ran) rfl)

theorem move_realized (fits : ∀ q : QueueName, q.cap m < 2 ^ 64) (room : 0 < m.tensorCap)
    (showing : Showing k d) (reached : Reachable dataStep (DataWorld.start m bytes) d)
    {core : Core} {next : World m} (moves : coreStep d.world core = .moves next) :
    Realized k d core := by
  have projected := data_run_projects reached
  have bounded := processed_bounded projected
  cases core with
  | bsp =>
    cases bsp_move_cases moves with
    | booted pc later next here =>
      exact boot_realized showing here (parked_while_booting projected pc here)
    | bootFailed pc why held next here =>
      exact boot_realized showing here (parked_while_booting projected pc here)
    | apStarted tensor here =>
      exact boot_realized showing here (parked_while_booting projected _ here)
    | apSeen tensor here ready => exact await_ap_realized showing here ready
    | sent tensor raw rest interCore here unsent pushed =>
      have pushing : d.world.pushing .interCore = some raw := by
        simp only [World.pushing, here, unsent, List.head?_cons]
      exact push_realized fits showing pushing ((push_some_iff _ _ _).mp pushed).1
    | tensorRefused tensor here unsent full =>
      obtain ⟨logs, inv⟩ := showing
      have offered : (k.queues .tensors).accepted.length ≤ d.world.bsp.offered :=
        inv.counts.offered
      have items : d.world.tensors.items = (k.queues .tensors).held := inv.items .tensors
      have none : (k.queues .tensors).held.length ≤ 0 := by
        rw [here, BspPc.offered] at offered
        rw [Ring.held, List.length_drop]
        omega
      rw [← items, (push_none_iff _ _).mp full] at none
      omega
    | tensorSent tensor tensors here unsent pushed =>
      have pushing : d.world.pushing .tensors = some tensor := by
        simp only [World.pushing, here, unsent]
      exact push_realized fits showing pushing ((push_some_iff _ _ _).mp pushed).1
    | tensorSeen here complete => exact await_tensor_realized showing here complete
    | reported report later result completion here more popped =>
      exact completion_realized fits showing here more popped
    | countOverflowed report result completion here more popped =>
      exact completion_realized fits showing here more popped
    | finished report here all => exact finish_realized showing here all
  | ap =>
    cases ap_move_cases moves with
    | started here => exact announce_realized showing here
    | taken raw interCore here more popped =>
      have held : d.world.items .interCore ≠ [] := by
        rw [World.items, (pop_some_iff _ _ _).mp popped]
        exact List.cons_ne_nil _ _
      exact take_realized fits showing bounded here held
    | batchDone here all => exact batch_done_realized showing bounded here all
    | returned raw result completion here pushed =>
      have pushing : d.world.pushing .completion = some result := by
        simp only [World.pushing, here]
      exact push_realized fits showing pushing ((push_some_iff _ _ _).mp pushed).1
    | counted here => exact count_realized showing here
    | tensorTaken tensor tensors here popped =>
      have popping : d.world.popping k.polling .tensors = true := by
        simp only [World.popping, here]
      have held : d.world.items .tensors ≠ [] := by
        rw [World.items, (pop_some_iff _ _ _).mp popped]
        exact List.cons_ne_nil _ _
      exact pop_realized fits showing popping held
    | reductionPanicked tensor panic here => exact reduce_realized showing here
    | reduced tensor count here => exact reduce_realized showing here
    | freePanicked physAddr fault here => exact free_realized showing here
    | freed physAddr returned pmm here => exact free_realized showing here
    | completed returned here => exact complete_realized showing here

/-- Every run over one shared state has a run over release and acquire memory
    beside it. -/
theorem run_realized (fits : ∀ q : QueueName, q.cap m < 2 ^ 64) (room : 0 < m.tensorCap)
    (showing : Showing k d) (before : Reachable dataStep (DataWorld.start m bytes) d)
    {e : DataWorld m} (reached : Reachable dataStep d e) :
    ∃ k', Reachable weakKernelStep k k' ∧ Showing k' e := by
  induction reached with
  | start => exact ⟨k, .start, showing⟩
  | next core later _ taken ih =>
    obtain ⟨k', ran, showing⟩ := ih
    rcases data_step_cases taken with ⟨next, moves, _⟩ | rfl
    · obtain ⟨last, goesOn, e, shown, moved⟩ :=
        move_realized fits room showing (reaches_trans before later) moves
      rw [taken] at shown
      cases shown
      exact ⟨last, reaches_trans ran (reaches_freely goesOn), moved⟩
    · exact ⟨k', ran, showing⟩

end CellKernel
