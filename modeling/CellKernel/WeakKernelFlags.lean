import CellKernel.WeakKernelSteps

/-
The loads and stores of the flags. A flag that is read as raised has been
raised, and a core that still reads the old one goes on spinning.
-/
namespace CellKernel
open CellCore CellFifo CellInterleaving CellPmm CellRuns CellTensor CellWeak ReleaseAcquire

variable {m : Machine} {memory memory' : KernelMemory} {queues : Queues m} {d e : DataWorld m}
  {w next : World m} {seen stored polling : Bool} {logs : Flag → Log Core Atomic}
  {k k' : WeakKernel m} {time : Nat}

/-- A step that changes nothing but what the cores know. -/
theorem load_waits (inv : WeakKernelInv ⟨memory, queues, d.still, seen, polling, stored⟩ d logs)
    (framed : Frame memory memory' none none) :
    WeakKernelInv ⟨memory', queues, d.still, seen, polling, stored⟩ d logs := by
  refine ⟨memory_frame inv.memory framed (by simp), rfl, inv.items, ?_, inv.calls, inv.counts, ?_⟩
  · exact flags_kept inv.flags (framed.grows .bsp) (fun _ _ => rfl) (fun _ => rfl) rfl rfl id
      inv.flags.completing
  · exact accesses_kept inv.accesses (fun c _ => framed.accesses c (by simp)) framed.grows
      (fun _ _ => Or.inl) id

theorem loaded_message (inv : MemoryInv memory queues logs) {f : Flag} {core : Core}
    {order : LoadOrder} {value : UInt64}
    (loaded : memory.load core (.flag f) time order = some (value, memory')) :
    ∃ n x, (logs f)[n]? = some x ∧ x.2.value = value ∧ Observed memory' core (.flag f) (logs f) n ∧
      ∀ known, Observed memory core (.flag f) (logs f) known → known ≤ n := by
  obtain ⟨n, message, there, same, observed, newest⟩ := load_observes (inv.flags f) loaded
  exact ⟨n, _, there, same.symm, observed, newest⟩

theorem weak_await_ap (inv : WeakKernelInv k d logs)
    (ran : weakKernelStep k (.awaitAp time) = some k') :
    (Showing k' d ∧ k'.cores = k.cores) ∨ Moved k' d .bsp := by
  obtain ⟨memory, queues, cores, seen, polling, stored⟩ := k
  have same : cores = d.still := inv.cores
  subst same
  simp only [weakKernelStep, DataWorld.still, still_bsp] at ran
  split at ran
  · rename_i tensor bsp
    obtain ⟨⟨value, memory'⟩, loaded, same⟩ := Option.map_eq_some_iff.mp ran
    have framed := load_frame loaded
    simp only at same
    split at same
    · subst same
      exact Or.inl ⟨⟨logs, load_waits inv framed⟩, rfl⟩
    · rename_i nonzero
      subst same
      obtain ⟨n, x, there, value, _⟩ := loaded_message inv.memory loaded
      have ready := inv.flags.ready x (List.mem_of_getElem? there) (by rw [value]; exact nonzero)
      have real : coreStep d.world .bsp = .moves { d.world with bsp := .sending tensor } := by
        simp only [coreStep, bspStep, bsp, if_pos ready]
      have shown := data_step_moves real
      have after : ∀ next, d.after next .bsp = { d with world := next } := by
        intro next
        simp only [DataWorld.after, DataWorld.bspData, bsp]
      rw [after] at shown
      have waits := load_waits inv framed
      refine Or.inr ⟨_, shown, logs, waits.memory, rfl, ?_, ?_, ?_, ?_, ?_⟩
      · intro q
        rw [← inv.items q]
        cases q <;> rfl
      · refine flags_kept waits.flags (le_refl _) ?_ (fun _ => rfl) rfl rfl id
          inv.flags.completing
        intro f _
        cases f <;> rfl
      · refine calls_kept inv.calls ?_ ?_ inv.calls.polled
        · intro q
          cases q <;> simp [World.pushing, bsp]
        · intro q
          cases q <;> simp [World.popping, bsp]
      · exact counts_kept inv.counts rfl rfl (by rw [bsp]; exact Nat.le_refl _) id
      · exact accesses_kept waits.accesses (fun _ _ => rfl) (fun _ => le_refl _)
          (fun _ _ => Or.inl) id
  · cases ran

/-- Whoever reads that the tensor is complete knows of the stored sum. -/
theorem weak_await_tensor (inv : WeakKernelInv k d logs)
    (ran : weakKernelStep k (.awaitTensor time) = some k') : Showing k' d := by
  obtain ⟨memory, queues, cores, seen, polling, stored⟩ := k
  have same : cores = d.still := inv.cores
  subst same
  simp only [weakKernelStep] at ran
  split at ran
  · obtain ⟨⟨value, memory'⟩, loaded, same⟩ := Option.map_eq_some_iff.mp ran
    subst same
    have waits := load_waits inv (load_frame loaded)
    have flags := waits.flags
    refine ⟨logs, waits.memory, rfl, waits.items, ?_, waits.calls, waits.counts, waits.accesses⟩
    refine ⟨flags.newest, flags.ready, flags.complete, flags.sum, flags.length,
      flags.stored_past, flags.completing, ?_⟩
    intro raised
    have nonzero : value ≠ 0 := of_decide_eq_true raised
    obtain ⟨n, x, there, valued, observed, _⟩ := loaded_message inv.memory loaded
    obtain ⟨complete, s, second, told⟩ :=
      flags.complete x (List.mem_of_getElem? there) (by rw [valued]; exact nonzero)
    have view := observed_view (waits.memory.flags .tensorComplete) observed there
    exact ⟨complete, s, second, told.trans (view.1 _)⟩
  · cases ran

theorem weak_load_sum (inv : WeakKernelInv k d logs)
    (ran : weakKernelStep k (.loadSum time) = some k') : Moved k' d .bsp := by
  obtain ⟨memory, queues, cores, seen, polling, stored⟩ := k
  have same : cores = d.still := inv.cores
  subst same
  simp only [weakKernelStep] at ran
  split at ran
  · rename_i bsp
    have bsp : d.world.bsp = .awaitingTensor := bsp
    obtain ⟨⟨value, memory'⟩, loaded, same⟩ := Option.map_eq_some_iff.mp ran
    subst same
    obtain ⟨complete, observed⟩ := inv.flags.seen_known rfl
    obtain ⟨n, x, there, valued, _, newest⟩ := loaded_message inv.memory loaded
    have later := newest 1 observed
    obtain ⟨before, rfl⟩ : ∃ before, n = before + 1 := ⟨n - 1, by omega⟩
    have bits := inv.flags.sum before x there
    rw [valued] at bits
    subst bits
    have real : coreStep d.world .bsp =
        .moves { d.world with bsp := .reporting (Report.start _) } := by
      simp only [coreStep, bspStep, bsp, if_pos complete]
    have shown := data_step_moves real
    simp only [DataWorld.after, DataWorld.bspData] at shown
    rw [bsp] at shown
    simp only at shown
    have waits := load_waits inv (load_frame loaded)
    refine ⟨_, shown, logs, waits.memory, rfl, ?_, ?_, ?_, ?_, ?_⟩
    · intro q
      rw [← inv.items q]
      cases q <;> rfl
    · refine flags_kept waits.flags (le_refl _) ?_ (fun _ => rfl) rfl rfl id
        inv.flags.completing
      intro f _
      cases f <;> rfl
    · refine calls_kept inv.calls ?_ ?_ inv.calls.polled
      · intro q
        cases q <;> simp [World.pushing, bsp]
      · intro q
        cases q <;> simp [World.popping, bsp]
    · exact counts_kept inv.counts rfl rfl (by rw [bsp]; exact Nat.le_refl _) id
    · exact accesses_kept waits.accesses (fun _ _ => rfl) (fun _ => le_refl _)
        (fun _ _ => Or.inl) id
  · cases ran

theorem store_kept {f : Flag} {log : Log Core Atomic}
    (inv : WeakKernelInv ⟨memory, queues, d.still, seen, polling, stored⟩ d logs)
    (framed : Frame memory memory' (some (.flag f)) none)
    (published : Published memory' (.flag f) .ap log) :
    MemoryInv memory' queues (Function.update logs f log) ∧ AccessInv memory' queues d.world := by
  refine ⟨memory_stored inv.memory framed published, ?_⟩
  exact accesses_kept inv.accesses (fun c _ => framed.accesses c (by simp)) framed.grows
    (fun _ _ => Or.inl) id

theorem weak_announce (inv : WeakKernelInv k d logs)
    (ran : weakKernelStep k (.announce time) = some k') : Moved k' d .ap := by
  obtain ⟨memory, queues, cores, seen, polling, stored⟩ := k
  have same : cores = d.still := inv.cores
  subst same
  simp only [weakKernelStep, DataWorld.still, still_ap] at ran
  split at ran
  · rename_i ap
    obtain ⟨memory', put, same⟩ := Option.map_eq_some_iff.mp ran
    subst same
    have framed := store_frame put
    obtain ⟨memory_inv, accesses⟩ := store_kept inv framed
      (published_store (inv.memory.flags .apReady) put)
    have real : coreStep d.world .ap =
        .moves { d.world with apReady := true, ap := .working } := by
      simp only [coreStep, apStep, ap]
    have shown := data_step_moves real
    rw [ap_after (by simp [ap]) (by simp [ap])] at shown
    refine ⟨_, shown, _, memory_inv, rfl, ?_, ?_, ?_, ?_, ?_⟩
    · intro q
      rw [← inv.items q]
      cases q <;> rfl
    · refine flags_stored inv.flags (framed.grows .bsp) (by decide) ?_ (fun _ => rfl) ?_
        (by rintro ⟨⟩) ?_ (by rintro _ ⟨⟩)
      · intro g other
        cases g <;> first | rfl | exact absurd rfl other
      · exact fun was => was.resolve_right (by decide)
      · intro known
        have past := inv.flags.stored_past known
        rw [ap] at past
        cases past
    · refine calls_kept inv.calls ?_ ?_ ?_
      · intro q
        cases q <;> simp [World.pushing, ap]
      · intro q
        cases q <;> simp [World.popping, ap]
      · intro polls
        have working := (inv.calls.polled polls).1
        rw [ap] at working
        cases working
    · exact counts_kept inv.counts rfl (by rw [ap]; rfl) (Nat.le_refl _) (by rintro ⟨⟩)
    · refine accesses_kept accesses (fun _ _ => rfl) (fun _ => le_refl _) (fun _ _ => Or.inl) ?_
      rw [ap]
      rintro ⟨⟩
  · cases ran

theorem weak_load_processed (inv : WeakKernelInv k d logs) (bounded : d.world.apProcessed < 2 ^ 64)
    (ran : weakKernelStep k (.loadProcessed time) = some k') :
    (Showing k' d ∧ k'.polling = true) ∨ Moved k' d .ap := by
  obtain ⟨memory, queues, cores, seen, polling, stored⟩ := k
  have same : cores = d.still := inv.cores
  subst same
  simp only [weakKernelStep] at ran
  split at ran
  · rename_i ap
    have ap : d.world.ap = .working := ap
    obtain ⟨⟨value, memory'⟩, loaded, same⟩ := Option.map_eq_some_iff.mp ran
    obtain ⟨rfl, message, last, rfl⟩ := own_load (inv.memory.flags .apProcessed) loaded
    obtain ⟨newest, there, counted⟩ := inv.flags.newest .apProcessed (by rintro ⟨⟩)
    rw [last] at there
    cases there
    have read : message.value.toNat = d.world.apProcessed := by
      rw [counted]
      exact UInt64.toNat_ofNat_of_lt' bounded
    simp only [read] at same
    split at same
    · rename_i more
      subst same
      refine Or.inl ⟨⟨logs, inv.memory, rfl, inv.items, inv.flags, ?_, inv.counts,
        inv.accesses⟩, rfl⟩
      refine calls_kept inv.calls (fun _ => Or.inr rfl) ?_ (fun _ => ⟨ap, more⟩)
      intro q
      cases q with
      | interCore => simp [World.popping, ap]
      | _ => exact Or.inr rfl
    · rename_i all
      subst same
      have real : coreStep d.world .ap = .moves { d.world with ap := .pollingTensor } := by
        simp only [coreStep, apStep, ap, if_neg all]
      have shown := data_step_moves real
      rw [ap_after (by simp [ap]) (by simp [ap])] at shown
      refine Or.inr ⟨_, shown, logs, inv.memory, rfl, ?_, ?_, ?_, ?_, ?_⟩
      · intro q
        rw [← inv.items q]
        cases q <;> rfl
      · refine flags_kept inv.flags (le_refl _) ?_ (fun _ => rfl) rfl rfl ?_
          (by rintro _ ⟨⟩)
        · intro f _
          cases f <;> rfl
        · intro past
          rw [ap] at past
          cases past
      · refine calls_kept inv.calls ?_ ?_ (by rintro ⟨⟩)
        · intro q
          cases q <;> simp [World.pushing, ap]
        · intro q
          cases q <;> simp [World.popping, ap]
      · exact counts_kept inv.counts rfl (by rw [ap]; rfl) (Nat.le_refl _) (by rintro ⟨⟩)
      · refine accesses_kept inv.accesses (fun _ _ => rfl) (fun _ => le_refl _)
          (fun _ _ => Or.inl) ?_
        rw [ap]
        rintro ⟨⟩
  · cases ran

theorem weak_count_processed (inv : WeakKernelInv k d logs)
    (ran : weakKernelStep k (.countProcessed time) = some k') : Moved k' d .ap := by
  obtain ⟨memory, queues, cores, seen, polling, stored⟩ := k
  have same : cores = d.still := inv.cores
  subst same
  simp only [weakKernelStep, DataWorld.still, still_ap] at ran
  split at ran
  · rename_i ap
    obtain ⟨⟨value, memory'⟩, changed, same⟩ := Option.map_eq_some_iff.mp ran
    subst same
    have framed := exchange_frame changed
    obtain ⟨memory_inv, accesses⟩ := store_kept inv framed
      (published_exchange (inv.memory.flags .apProcessed) changed)
    obtain ⟨message, last, rfl⟩ := exchange_newest (inv.memory.flags .apProcessed) changed
    obtain ⟨newest, there, counted⟩ := inv.flags.newest .apProcessed (by rintro ⟨⟩)
    rw [last] at there
    cases there
    have next : message.value + 1 = UInt64.ofNat ((d.world.apProcessed + 1) % 2 ^ 64) := by
      rw [counted]
      apply UInt64.toNat_inj.mp
      simp [DataWorld.flag]
    rw [next] at memory_inv
    have real : coreStep d.world .ap = .moves { d.world with
        apProcessed := (d.world.apProcessed + 1) % 2 ^ 64, ap := .working } := by
      simp only [coreStep, apStep, ap]
    have shown := data_step_moves real
    rw [ap_after (by simp [ap]) (by simp [ap])] at shown
    refine ⟨_, shown, _, memory_inv, rfl, ?_, ?_, ?_, ?_, ?_⟩
    · intro q
      rw [← inv.items q]
      cases q <;> rfl
    · refine flags_stored inv.flags (framed.grows .bsp) (by decide) ?_ ?_ ?_
        (by rintro ⟨⟩) ?_ (by rintro _ ⟨⟩)
      · intro g other
        cases g <;> first | rfl | exact absurd rfl other
      · exact fun was => was.resolve_right (by decide)
      · exact fun was => was.resolve_right (by decide)
      · intro known
        have past := inv.flags.stored_past known
        rw [ap] at past
        cases past
    · refine calls_kept inv.calls ?_ ?_ ?_
      · intro q
        cases q <;> simp [World.pushing, ap]
      · intro q
        cases q <;> simp [World.popping, ap]
      · intro polls
        have working := (inv.calls.polled polls).1
        rw [ap] at working
        cases working
    · exact counts_kept inv.counts rfl (by rw [ap]; rfl) (Nat.le_refl _) (by rintro ⟨⟩)
    · refine accesses_kept accesses (fun _ _ => rfl) (fun _ => le_refl _) (fun _ _ => Or.inl) ?_
      rw [ap]
      rintro ⟨⟩
  · cases ran

theorem weak_store_sum (inv : WeakKernelInv k d logs)
    (ran : weakKernelStep k (.storeSum time) = some k') : Showing k' d := by
  obtain ⟨memory, queues, cores, seen, polling, stored⟩ := k
  have same : cores = d.still := inv.cores
  subst same
  simp only [weakKernelStep] at ran
  split at ran
  · rename_i physAddr ap
    have ap : d.world.ap = .freeing physAddr := ap
    obtain ⟨memory', put, same⟩ := Option.map_eq_some_iff.mp ran
    subst same
    have framed := store_frame put
    have flags := inv.flags
    obtain ⟨memory_inv, accesses⟩ := store_kept inv framed
      (published_store (inv.memory.flags .tensorSumBits) put)
    have one : (logs .tensorSumBits).length = 1 := flags.length
    refine ⟨_, memory_inv, rfl, inv.items, ?_, inv.calls, inv.counts, accesses⟩
    constructor
    · intro f _
      by_cases sum : f = .tensorSumBits
      · subst f
        rw [Function.update_self]
        exact ⟨(time, ⟨d.sumBits, memory'.views .ap⟩), by simp; rfl, rfl⟩
      · rw [Function.update_of_ne sum]
        exact flags.newest f fun same => absurd same sum
    · exact flags.ready
    · intro x inside nonzero
      rw [Function.update_self]
      rw [Function.update_of_ne (by decide)] at inside
      obtain ⟨_, s, second, _⟩ := flags.complete x inside nonzero
      have upto := (List.getElem?_eq_some_iff.mp second).1
      omega
    · intro n x there
      rw [Function.update_self] at there
      rcases snoc_lookup there with ⟨inside, _⟩ | ⟨_, rfl⟩
      · omega
      · rfl
    · rw [Function.update_self, List.length_append, one]
      rfl
    · intro _
      rw [ap]
      rfl
    · exact fun _ _ => rfl
    · intro known
      rw [Function.update_self]
      obtain ⟨was, observed⟩ := flags.seen_known known
      exact ⟨was, observed_append (observed_grows observed (framed.grows .bsp)) _⟩
  · cases ran

theorem weak_complete (inv : WeakKernelInv k d logs)
    (ran : weakKernelStep k (.complete time) = some k') : Moved k' d .ap := by
  obtain ⟨memory, queues, cores, seen, polling, stored⟩ := k
  have same : cores = d.still := inv.cores
  subst same
  simp only [weakKernelStep] at ran
  split at ran
  · rename_i returned ap
    have ap : d.world.ap = .completing returned := ap
    obtain ⟨memory', put, same⟩ := Option.map_eq_some_iff.mp ran
    subst same
    have framed := store_frame put
    obtain ⟨memory_inv, accesses⟩ := store_kept inv framed
      (published_store (inv.memory.flags .tensorComplete) put)
    have known : stored = true := inv.flags.completing returned ap
    subst known
    have length : (logs .tensorSumBits).length = 2 := inv.flags.length
    have second := List.getElem?_eq_getElem (l := logs .tensorSumBits) (i := 1) (by omega)
    have told := writer_knows (inv.memory.flags .tensorSumBits) (List.mem_of_getElem? second)
    let next : World m := { d.world with tensorComplete := true, ap := .finished }
    have real : coreStep d.world .ap = .moves next := by
      simp only [coreStep, apStep, ap, next]
    have after : d.after next .ap = { d with
        world := next
        verdict := d.sum.map fun reduced =>
          returned && reduced.1.beq TENSOR_ELEMENTS.toFloat32 } := by
      simp only [DataWorld.after, DataWorld.apData, ap]
    have cores := after_still d next .ap
    have shown := data_step_moves real
    rw [after] at shown cores
    refine ⟨_, shown, _, memory_inv, cores, ?_, ?_, ?_, ?_, ?_⟩
    · intro q
      rw [← inv.items q]
      cases q <;> rfl
    · refine flags_stored inv.flags (framed.grows .bsp) (by decide) ?_ ?_ (fun _ => rfl) ?_
        (fun _ => rfl) (by rintro _ ⟨⟩)
      · intro g other
        cases g <;> first | rfl | exact absurd rfl other
      · exact fun was => was.resolve_right (by decide)
      · exact fun _ => ⟨_, second, told.trans ((framed.grows .ap).1 _)⟩
    · refine calls_kept inv.calls ?_ ?_ ?_
      · intro q
        cases q <;> simp [World.pushing, ap, next]
      · intro q
        cases q <;> simp [World.popping, ap, next]
      · intro polls
        have working := (inv.calls.polled polls).1
        rw [ap] at working
        cases working
    · refine counts_kept inv.counts rfl (by rw [ap]; rfl) (Nat.le_refl _) ?_
      intro _
      rw [ap]
      rfl
    · exact accesses_kept accesses (fun _ _ => rfl) (fun _ => le_refl _) (fun _ _ => Or.inl)
        fun _ => rfl
  · cases ran

end CellKernel
