import CellKernel.WeakKernelSteps

/-
The steps of push and pop in the kernel. A call takes effect when it publishes
its counter; before that, and when it is refused, it changes nothing that is
shown.
-/
namespace CellKernel
open CellCore CellFifo CellInterleaving CellPmm CellRuns CellTensor CellWeak ReleaseAcquire

variable {m : Machine} {memory memory' : KernelMemory} {queues : Queues m} {d : DataWorld m}
  {w v : World m} {seen stored polling later : Bool} {logs : Flag → Log Core Atomic}
  {q : QueueName} {queue : Ring Core Atomic q.Item (q.cap m)}

theorem call_memory (inv : WeakKernelInv ⟨memory, queues, d.still, seen, polling, stored⟩ d logs)
    {counter : Atomic} (own : counter = .head q ∨ counter = .tail q)
    (ring : RingInv q.place memory' queue) (within : Within q.place counter memory memory')
    (told : ∀ (n : Nat) e, queue.heads[n]? = some e →
      (queues q).heads[n]? = some e ∨ e.2.view = memory'.views q.producer) :
    MemoryInv memory' (Function.update queues q queue) logs ∧
      (∀ i, memory.views i ≤ memory'.views i) ∧
      ∀ v : World m, (d.world.ap.took = true → v.ap.took = true) →
        AccessInv memory' (Function.update queues q queue) v := by
  refine ⟨memory_queue inv.memory own ring within, within_grows within, ?_⟩
  intro v took
  refine accesses_kept inv.accesses (fun c outside => within_accesses within (outside q))
    (within_grows within) ?_ took
  intro n e there
  by_cases same : q = .tensors
  · subst same
    rw [Function.update_self] at there
    exact told (n + 1) e there
  · rw [Function.update_of_ne (fun shared => same shared.symm)] at there
    exact Or.inl there

theorem items_queue (items : ∀ p, w.items p = (queues p).held) (changed : v.items q = queue.held)
    (others : ∀ p, p ≠ q → v.items p = w.items p) (p : QueueName) :
    v.items p = (Function.update queues q queue p).held := by
  by_cases same : p = q
  · subst p
    rw [Function.update_self]
    exact changed
  · rw [Function.update_of_ne same, others p same]
    exact items p

theorem counts_queue (inv : CountInv queues w) (accepted : queue.accepted = (queues q).accepted)
    (returned : queue.returned = (queues q).returned) :
    CountInv (Function.update queues q queue) w := by
  have same : ∀ p, (Function.update queues q queue p).accepted = (queues p).accepted ∧
      (Function.update queues q queue p).returned = (queues p).returned := by
    intro p
    by_cases shared : p = q
    · subst p
      rw [Function.update_self]
      exact ⟨accepted, returned⟩
    · rw [Function.update_of_ne shared]
      exact ⟨rfl, rfl⟩
  constructor
  · rw [(same .interCore).1]
    exact inv.sent
  · rw [(same .completion).1, (same .interCore).2]
    exact inv.answered
  · rw [(same .tensors).1]
    exact inv.offered
  · rw [(same .tensors).2]
    exact inv.took

theorem push_waits {a : PushAccess} {item : q.Item}
    (inv : WeakKernelInv ⟨memory, queues, d.still, seen, polling, stored⟩ d logs)
    (here : d.world.pushing q = some item)
    (spec : Pushed q.place memory (queues q) (a.pushing item) memory' queue)
    (same : queue.accepted = (queues q).accepted) :
    WeakKernelInv ⟨memory', Function.update queues q queue, d.still, seen, polling, stored⟩ d
      logs := by
  obtain ⟨memory_inv, grows, accesses⟩ :=
    call_memory inv (Or.inl rfl) spec.inv spec.within spec.told
  refine ⟨memory_inv, rfl, ?_, ?_, ?_, ?_, ?_⟩
  · apply items_queue inv.items _ fun _ _ => rfl
    rw [inv.items q, Ring.held, Ring.held, same, spec.returned]
  · exact flags_kept inv.flags (grows .bsp) (fun _ _ => rfl) (fun _ => rfl) rfl rfl id
      inv.flags.completing
  · apply calls_queue inv.calls
    · intro found under
      rcases spec.pushing found under with before | ⟨time, loads⟩
      · exact inv.calls.pushing q found before
      · rw [pushing_load loads]
        exact here
    · rw [spec.popper]
      exact inv.calls.popping q
    · exact fun _ _ => Or.inr rfl
    · exact fun _ _ => Or.inr rfl
    · exact inv.calls.polled
  · exact counts_queue inv.counts same spec.returned
  · exact accesses d.world id

/-- What the world has to show after a call on the queue has taken effect: the
    step changes that queue and the program point of one core. -/
structure Lands (w v : World m) (queues : Queues m) (q : QueueName)
    (queue : Ring Core Atomic q.Item (q.cap m)) (polling later : Bool) : Prop where
  ready : v.apReady = w.apReady
  processed : v.apProcessed = w.apProcessed
  complete : v.tensorComplete = w.tensorComplete
  changed : v.items q = queue.held
  others : ∀ p, p ≠ q → v.items p = w.items p
  past : w.ap.pastReducing = true → v.ap.pastReducing = true
  completing : ∀ returned, v.ap = .completing returned → w.ap = .completing returned
  took : w.ap.took = true → v.ap.took = true
  pushing : ∀ p, p ≠ q → w.pushing p = none ∨ v.pushing p = w.pushing p
  popping : ∀ p, p ≠ q → w.popping polling p = false ∨ v.popping later p = w.popping polling p
  polled : later = true → v.ap = .working ∧ v.apProcessed < m.batch.length
  counts : CountInv (Function.update queues q queue) v

theorem call_lands (inv : WeakKernelInv ⟨memory, queues, d.still, seen, polling, stored⟩ d logs)
    {counter : Atomic} (own : counter = .head q ∨ counter = .tail q)
    (ring : RingInv q.place memory' queue) (within : Within q.place counter memory memory')
    (told : ∀ (n : Nat) e, queue.heads[n]? = some e →
      (queues q).heads[n]? = some e ∨ e.2.view = memory'.views q.producer)
    {next : World m} {core : Core} (shown : dataStep d core = some { d with world := next })
    (cores : w = next.still) (lands : Lands d.world next queues q queue polling later)
    (pusher : ∀ item, pushItem queue.pusher = some item → next.pushing q = some item)
    (popper : queue.popper ≠ .idle → next.popping later q = true) :
    Moved ⟨memory', Function.update queues q queue, { d.still with world := w }, seen, later,
      stored⟩ d core := by
  obtain ⟨memory_inv, grows, accesses⟩ := call_memory inv own ring within told
  subst cores
  refine ⟨_, shown, logs, memory_inv, rfl, items_queue inv.items lands.changed lands.others, ?_,
    calls_queue inv.calls pusher popper lands.pushing lands.popping lands.polled, lands.counts,
    accesses next lands.took⟩
  refine flags_kept inv.flags (grows .bsp) ?_ (fun _ => rfl) lands.ready lands.complete lands.past
    fun returned completing => inv.flags.completing returned (lands.completing returned completing)
  intro f _
  cases f <;> simp only [DataWorld.flag, lands.ready, lands.processed, lands.complete]

theorem push_lands {a : PushAccess} {item : q.Item}
    (inv : WeakKernelInv ⟨memory, queues, d.still, seen, polling, stored⟩ d logs)
    (spec : Pushed q.place memory (queues q) (a.pushing item) memory' queue)
    (idle : queue.pusher = .idle) {next : World m} {core : Core}
    (shown : dataStep d core = some { d with world := next }) (cores : w = next.still)
    (popping : next.popping polling q = d.world.popping polling q)
    (lands : Lands d.world next queues q queue polling polling) :
    Moved ⟨memory', Function.update queues q queue, { d.still with world := w }, seen, polling,
      stored⟩ d core := by
  refine call_lands inv (Or.inl rfl) spec.inv spec.within spec.told shown cores lands ?_ ?_
  · intro item under
    rw [idle] at under
    cases under
  · rw [spec.popper, popping]
    exact inv.calls.popping q

theorem pop_lands (inv : WeakKernelInv ⟨memory, queues, d.still, seen, polling, stored⟩ d logs)
    (spec : Popped q.place memory (queues q) memory' queue) (idle : queue.popper = .idle)
    {next : World m} {core : Core} (shown : dataStep d core = some { d with world := next })
    (cores : w = next.still) (pushing : next.pushing q = d.world.pushing q)
    (lands : Lands d.world next queues q queue polling later) :
    Moved ⟨memory', Function.update queues q queue, { d.still with world := w }, seen, later,
      stored⟩ d core := by
  refine call_lands inv (Or.inr rfl) spec.inv spec.within (fun n e there => Or.inl ?_) shown cores
    lands ?_ ?_
  · rw [← spec.heads]
    exact there
  · rw [spec.pusher, pushing]
    exact inv.calls.pushing q
  · intro under
    exact absurd idle under

theorem sending_after {tensor : TensorChunk .ready} (here : d.world.bsp = .sending tensor)
    (next : World m) : d.after next .bsp = { d with world := next } := by
  simp only [DataWorld.after, DataWorld.bspData, here]

theorem reporting_after {report : Report m.batch.length} (here : d.world.bsp = .reporting report)
    (next : World m) : d.after next .bsp = { d with world := next } := by
  simp only [DataWorld.after, DataWorld.bspData, here]

theorem pushing_inter_core {raw : RawPayload} (here : w.pushing .interCore = some raw) :
    ∃ tensor rest, w.bsp = .sending tensor ∧ w.unsent = raw :: rest := by
  simp only [World.pushing] at here
  split at here
  · rename_i tensor bsp
    obtain ⟨rest, unsent⟩ := List.head?_eq_some_iff.mp here
    exact ⟨tensor, rest, bsp, unsent⟩
  · cases here

theorem pushing_completion {result : WorkResult} (here : w.pushing .completion = some result) :
    ∃ raw, w.ap = .returning raw result := by
  simp only [World.pushing] at here
  split at here
  · rename_i raw _ ap
    cases here
    exact ⟨raw, ap⟩
  · cases here

theorem pushing_tensors {tensor : TensorChunk .ready} (here : w.pushing .tensors = some tensor) :
    w.bsp = .sending tensor ∧ w.unsent = [] := by
  simp only [World.pushing] at here
  split at here
  · rename_i bsp unsent
    cases here
    exact ⟨bsp, unsent⟩
  · cases here

theorem pushing_after_tensor {tensor : TensorChunk .ready} (bsp : w.bsp = .sending tensor)
    (unsent : w.unsent = []) (ap : v.ap = w.ap) (p : QueueName) (other : p ≠ .tensors) :
    w.pushing p = none ∨ v.pushing p = w.pushing p := by
  cases p with
  | interCore => simp [World.pushing, bsp, unsent]
  | completion => simp [World.pushing, ap]
  | tensors => exact absurd rfl other

theorem popping_after_tensor {tensor : TensorChunk .ready} (bsp : w.bsp = .sending tensor)
    (ap : v.ap = w.ap) (p : QueueName) (_ : p ≠ .tensors) :
    w.popping polling p = false ∨ v.popping polling p = w.popping polling p := by
  cases p with
  | completion => simp [World.popping, bsp]
  | _ => simp [World.popping, ap]

theorem inter_core_pushed {queue : Ring Core Atomic RawPayload m.interCap} {a : PushAccess}
    {raw : RawPayload}
    (inv : WeakKernelInv ⟨memory, queues, d.still, seen, polling, stored⟩ d logs)
    (here : d.world.pushing .interCore = some raw)
    (spec : Pushed (QueueName.place .interCore) memory (queues .interCore) (a.pushing raw) memory'
      queue)
    (accepted : queue.accepted = (queues .interCore).accepted ++ [raw])
    (idle : queue.pusher = .idle) (room : (queues .interCore).held.length < m.interCap)
    (grown : queue.held = (queues .interCore).held ++ [raw]) :
    Moved ⟨memory', Function.update queues .interCore queue,
      { d.still with world := d.still.world.pushed .interCore .accepted }, seen, polling,
      stored⟩ d .bsp := by
  obtain ⟨tensor, rest, bsp, unsent⟩ := pushing_inter_core here
  have items : d.world.interCore.items = (queues .interCore).held := inv.items .interCore
  obtain ⟨interCore, pushed, held⟩ :=
    push_succeeds d.world.interCore raw (by rw [items]; exact room)
  have real : coreStep d.world .bsp =
      .moves { d.world with interCore := interCore, unsent := rest } := by
    simp only [coreStep, bspStep, bsp, unsent, pushed]
  have shown := data_step_moves real
  rw [sending_after bsp] at shown
  refine push_lands inv spec idle shown ?_ rfl ⟨rfl, rfl, rfl, ?_, ?_, id,
    fun _ => id, id, ?_, ?_, inv.calls.polled, ?_⟩
  · simp [DataWorld.still, World.still, World.pushed, unsent]
  · exact (held.trans (by rw [items])).trans grown.symm
  · intro p other
    cases p <;> first | rfl | exact absurd rfl other
  · intro p other
    cases p with
    | interCore => exact absurd rfl other
    | completion => exact Or.inr rfl
    | tensors => simp [World.pushing, bsp, unsent]
  · intro p _
    cases p <;> exact Or.inr rfl
  · have counts : CountInv queues d.world := inv.counts
    have sent := counts.sent
    rw [unsent, List.length_cons] at sent
    constructor
    · rw [Function.update_self, accepted, List.length_append, List.length_singleton]
      change (queues .interCore).accepted.length + 1 + rest.length = _
      omega
    · rw [Function.update_self, Function.update_of_ne (by decide), spec.returned]
      exact counts.answered
    · rw [Function.update_of_ne (by decide)]
      exact counts.offered
    · rw [Function.update_of_ne (by decide)]
      exact counts.took

theorem completion_pushed {queue : Ring Core Atomic WorkResult m.completionCap} {a : PushAccess}
    {result : WorkResult}
    (inv : WeakKernelInv ⟨memory, queues, d.still, seen, polling, stored⟩ d logs)
    (here : d.world.pushing .completion = some result)
    (spec : Pushed (QueueName.place .completion) memory (queues .completion) (a.pushing result)
      memory' queue)
    (accepted : queue.accepted = (queues .completion).accepted ++ [result])
    (idle : queue.pusher = .idle) (room : (queues .completion).held.length < m.completionCap)
    (grown : queue.held = (queues .completion).held ++ [result]) :
    Moved ⟨memory', Function.update queues .completion queue,
      { d.still with world := d.still.world.pushed .completion .accepted }, seen, polling,
      stored⟩ d .ap := by
  obtain ⟨raw, ap⟩ := pushing_completion here
  have items : d.world.completion.items = (queues .completion).held := inv.items .completion
  obtain ⟨completion, pushed, held⟩ :=
    push_succeeds d.world.completion result (by rw [items]; exact room)
  have real : coreStep d.world .ap =
      .moves { d.world with completion := completion, ap := .counting } := by
    simp only [coreStep, apStep, ap, pushed]
  have shown := data_step_moves real
  rw [ap_after (by simp [ap]) (by simp [ap])] at shown
  refine push_lands inv spec idle shown rfl rfl ⟨rfl, rfl, rfl, ?_, ?_,
    by simp [ap, ApPc.pastReducing], by simp, by simp [ap, ApPc.took], ?_, ?_, ?_, ?_⟩
  · exact (held.trans (by rw [items])).trans grown.symm
  · intro p other
    cases p <;> first | rfl | exact absurd rfl other
  · intro p other
    cases p with
    | completion => exact absurd rfl other
    | _ => exact Or.inr rfl
  · intro p other
    cases p with
    | completion => exact absurd rfl other
    | _ => simp [World.popping, ap]
  · intro polls
    have working := (inv.calls.polled polls).1
    rw [ap] at working
    cases working
  · have counts : CountInv queues d.world := inv.counts
    have answered := counts.answered
    rw [ap] at answered
    constructor
    · rw [Function.update_of_ne (by decide)]
      exact counts.sent
    · rw [Function.update_self, Function.update_of_ne (by decide), accepted, List.length_append]
      exact answered
    · rw [Function.update_of_ne (by decide)]
      exact counts.offered
    · intro took
      cases took

theorem tensor_pushed {queue : Ring Core Atomic (TensorChunk .ready) m.tensorCap}
    {a : PushAccess} {tensor : TensorChunk .ready}
    (inv : WeakKernelInv ⟨memory, queues, d.still, seen, polling, stored⟩ d logs)
    (here : d.world.pushing .tensors = some tensor)
    (spec : Pushed (QueueName.place .tensors) memory (queues .tensors) (a.pushing tensor)
      memory' queue)
    (accepted : queue.accepted = (queues .tensors).accepted ++ [tensor])
    (idle : queue.pusher = .idle) (room : (queues .tensors).held.length < m.tensorCap)
    (grown : queue.held = (queues .tensors).held ++ [tensor]) :
    Moved ⟨memory', Function.update queues .tensors queue,
      { d.still with world := d.still.world.pushed .tensors .accepted }, seen, polling,
      stored⟩ d .bsp := by
  obtain ⟨bsp, unsent⟩ := pushing_tensors here
  have items : d.world.tensors.items = (queues .tensors).held := inv.items .tensors
  obtain ⟨tensors, pushed, held⟩ :=
    push_succeeds d.world.tensors tensor (by rw [items]; exact room)
  have real : coreStep d.world .bsp =
      .moves { d.world with tensors := tensors, bsp := .awaitingTensor } := by
    simp only [coreStep, bspStep, bsp, unsent, pushed]
  have shown := data_step_moves real
  rw [sending_after bsp] at shown
  refine push_lands inv spec idle shown rfl rfl ⟨rfl, rfl, rfl, ?_, ?_, id,
    fun _ => id, id, pushing_after_tensor bsp unsent rfl, popping_after_tensor bsp rfl,
    inv.calls.polled, ?_⟩
  · exact (held.trans (by rw [items])).trans grown.symm
  · intro p other
    cases p <;> first | rfl | exact absurd rfl other
  · have counts : CountInv queues d.world := inv.counts
    have offered := counts.offered
    rw [bsp] at offered
    constructor
    · rw [Function.update_of_ne (by decide)]
      exact counts.sent
    · rw [Function.update_of_ne (by decide), Function.update_of_ne (by decide)]
      exact counts.answered
    · rw [Function.update_self, accepted, List.length_append]
      exact Nat.succ_le_succ offered
    · rw [Function.update_self, spec.returned]
      exact counts.took

/-- The queue that the BSP finds full is empty to everyone: it has no room. -/
theorem tensor_refused {queue : Ring Core Atomic (TensorChunk .ready) m.tensorCap}
    {a : PushAccess} {tensor : TensorChunk .ready}
    (inv : WeakKernelInv ⟨memory, queues, d.still, seen, polling, stored⟩ d logs)
    (here : d.world.pushing .tensors = some tensor)
    (spec : Pushed (QueueName.place .tensors) memory (queues .tensors) (a.pushing tensor)
      memory' queue)
    (accepted : queue.accepted = (queues .tensors).accepted) (idle : queue.pusher = .idle)
    (full : m.tensorCap ≤ (queues .tensors).accepted.length) :
    Moved ⟨memory', Function.update queues .tensors queue,
      { d.still with world := d.still.world.pushed .tensors .refused }, seen, polling,
      stored⟩ d .bsp := by
  obtain ⟨bsp, unsent⟩ := pushing_tensors here
  have offered := inv.counts.offered
  rw [bsp] at offered
  have roomless : d.world.tensors.push tensor = none := by
    have bounded := d.world.tensors.bounded
    have none : (queues .tensors).accepted.length = 0 := Nat.le_zero.mp offered
    exact (push_none_iff _ _).mpr (by omega)
  have real : coreStep d.world .bsp = .moves (d.world.halt .tensorQueueFull none) := by
    simp only [coreStep, bspStep, bsp, unsent, roomless]
  have shown := data_step_moves real
  rw [sending_after bsp] at shown
  refine push_lands inv spec idle shown rfl rfl ⟨rfl, rfl, rfl, ?_, ?_, id,
    fun _ => id, id, pushing_after_tensor bsp unsent rfl, popping_after_tensor bsp rfl,
    inv.calls.polled, ?_⟩
  · have held : d.world.tensors.items = (queues .tensors).held := inv.items .tensors
    exact held.trans (by rw [Ring.held, Ring.held, accepted, spec.returned])
  · intro p _
    cases p <;> rfl
  · refine counts_kept (counts_queue inv.counts accepted spec.returned) rfl rfl ?_ id
    rw [bsp]
    exact Nat.zero_le _

/-- A step of push is one of the two cores over one state, or changes nothing. -/
theorem weak_push {k k' : WeakKernel m} (fits : ∀ q : QueueName, q.cap m < 2 ^ 64)
    (inv : WeakKernelInv k d logs) {a : PushAccess}
    (ran : weakKernelStep k (.push q a) = some k') :
    (Showing k' d ∧ (k'.queues q).accepted = (k.queues q).accepted) ∨
      Moved k' d q.producer := by
  obtain ⟨memory, queues, cores, seen, polling, stored⟩ := k
  have same : cores = d.still := inv.cores
  subst same
  simp only [weakKernelStep, DataWorld.still, still_pushing] at ran
  split at ran
  · rename_i item here
    obtain ⟨⟨memory', queue⟩, moved, same⟩ := Option.map_eq_some_iff.mp ran
    have updated := congrArg Ring.accepted (Function.update_self q queue queues)
    have spec := push_spec (fits q) (inv.memory.queues q) (in_range inv.memory inv.counts q) moved
    rcases spec.reply with ⟨reply, kept⟩ | ⟨reply, kept, idle, refusal⟩ |
      ⟨found, reply, under, accepted, idle, room, grown⟩
    · simp only [reply] at same
      subst same
      have stays : d.world.still.pushed q .running = d.world.still := by cases q <;> rfl
      rw [stays]
      exact Or.inl ⟨⟨logs, push_waits inv here spec kept⟩, updated.trans kept⟩
    · simp only [reply] at same
      subst same
      cases q with
      | tensors =>
        have unseen := refusal 0 (start_observed (inv.memory.queues .tensors).tails .bsp)
        exact Or.inr (tensor_refused inv here spec kept idle (by simpa using unseen))
      | interCore =>
        exact Or.inl ⟨⟨logs, push_waits inv here spec kept⟩, updated.trans kept⟩
      | completion =>
        exact Or.inl ⟨⟨logs, push_waits inv here spec kept⟩, updated.trans kept⟩
    · have pushes := inv.calls.pushing q found under
      rw [here] at pushes
      cases pushes
      simp only [reply] at same
      subst same
      cases q with
      | interCore => exact Or.inr (inter_core_pushed inv here spec accepted idle room grown)
      | completion => exact Or.inr (completion_pushed inv here spec accepted idle room grown)
      | tensors => exact Or.inr (tensor_pushed inv here spec accepted idle room grown)
  · cases ran

theorem popping_inter_core (here : w.popping polling .interCore = true) :
    w.ap = .working ∧ polling = true := by
  simp only [World.popping] at here
  split at here
  · rename_i ap
    exact ⟨ap, here⟩
  · cases here

theorem popping_completion (here : w.popping polling .completion = true) :
    ∃ report, w.bsp = .reporting report ∧ report.reports < m.batch.length := by
  simp only [World.popping] at here
  split at here
  · rename_i report bsp
    exact ⟨report, bsp, of_decide_eq_true here⟩
  · cases here

theorem popping_tensors (here : w.popping polling .tensors = true) : w.ap = .pollingTensor := by
  simp only [World.popping] at here
  split at here
  · assumption
  · cases here

theorem polling_after {reply : PopReply q.Item} (after : pollingAfter polling q reply = true) :
    polling = true := by
  cases q
  case interCore => cases reply <;> simp_all [pollingAfter]
  all_goals exact after

/-- Only the pop of the loop of the AP depends on what it has found. -/
theorem popping_after (reply : PopReply q.Item) {p : QueueName} (other : p ≠ q) :
    w.popping (pollingAfter polling q reply) p = w.popping polling p := by
  cases q with
  | interCore =>
    cases p with
    | interCore => exact absurd rfl other
    | _ => rfl
  | _ => rfl

theorem pop_waits
    (inv : WeakKernelInv ⟨memory, queues, d.still, seen, polling, stored⟩ d logs)
    (spec : Popped q.place memory (queues q) memory' queue)
    (same : queue.returned = (queues q).returned) {reply : PopReply q.Item}
    (popper : queue.popper ≠ .idle → d.world.popping (pollingAfter polling q reply) q = true) :
    WeakKernelInv ⟨memory', Function.update queues q queue, d.still, seen,
      pollingAfter polling q reply, stored⟩ d logs := by
  obtain ⟨memory_inv, grows, accesses⟩ := call_memory inv (Or.inr rfl) spec.inv spec.within
    fun n e there => Or.inl (spec.heads ▸ there)
  refine ⟨memory_inv, rfl, ?_, ?_, ?_, ?_, ?_⟩
  · apply items_queue inv.items _ fun _ _ => rfl
    rw [inv.items q, Ring.held, Ring.held, same, spec.accepted]
  · exact flags_kept inv.flags (grows .bsp) (fun _ _ => rfl) (fun _ => rfl) rfl rfl id
      inv.flags.completing
  · apply calls_queue inv.calls
    · rw [spec.pusher]
      exact inv.calls.pushing q
    · exact popper
    · exact fun _ _ => Or.inr rfl
    · exact fun _ other => Or.inr (popping_after reply other)
    · exact fun polls => inv.calls.polled (polling_after polls)
  · exact counts_queue inv.counts spec.accepted same
  · exact accesses d.world id

theorem inter_core_popped {queue : Ring Core Atomic RawPayload m.interCap} {raw : RawPayload}
    (inv : WeakKernelInv ⟨memory, queues, d.still, seen, polling, stored⟩ d logs)
    (here : d.world.popping polling .interCore = true)
    (spec : Popped (QueueName.place .interCore) memory (queues .interCore) memory' queue)
    (returned : queue.returned = (queues .interCore).returned ++ [raw])
    (idle : queue.popper = .idle) (oldest : (queues .interCore).held = raw :: queue.held) :
    Moved ⟨memory', Function.update queues .interCore queue,
      { d.still with world := d.still.world.popped .interCore (.returned raw) }, seen, false,
      stored⟩ d .ap := by
  obtain ⟨ap, polls⟩ := popping_inter_core here
  have items : d.world.interCore.items = (queues .interCore).held := inv.items .interCore
  rw [oldest] at items
  have short : queue.held.length ≤ m.interCap := held_short spec.inv
  have popped : d.world.interCore.pop = some (raw, ⟨queue.held, short⟩) :=
    (pop_some_iff _ _ _).mpr items
  have real : coreStep d.world .ap = .moves { d.world with
      interCore := ⟨queue.held, short⟩, ap := .returning raw (workResult raw) } := by
    simp only [coreStep, apStep, ap, if_pos (inv.calls.polled polls).2, popped]
  have shown := data_step_moves real
  rw [ap_after (by simp [ap]) (by simp [ap])] at shown
  refine pop_lands inv spec idle shown rfl rfl ⟨rfl, rfl, rfl, rfl, ?_,
    by simp [ap, ApPc.pastReducing], by simp, by simp [ap, ApPc.took], ?_, ?_, ?_, ?_⟩
  · intro p other
    cases p <;> first | rfl | exact absurd rfl other
  · intro p other
    cases p with
    | completion => simp [World.pushing, ap]
    | _ => exact Or.inr rfl
  · intro p other
    cases p with
    | interCore => exact absurd rfl other
    | completion => exact Or.inr rfl
    | tensors => simp [World.popping, ap]
  · rintro ⟨⟩
  · have counts : CountInv queues d.world := inv.counts
    have answered := counts.answered
    rw [ap] at answered
    constructor
    · rw [Function.update_self, spec.accepted]
      exact counts.sent
    · rw [Function.update_self, Function.update_of_ne (by decide), returned, List.length_append]
      exact congrArg (· + 1) answered
    · rw [Function.update_of_ne (by decide)]
      exact counts.offered
    · rintro ⟨⟩

theorem tensor_popped {queue : Ring Core Atomic (TensorChunk .ready) m.tensorCap}
    {tensor : TensorChunk .ready}
    (inv : WeakKernelInv ⟨memory, queues, d.still, seen, polling, stored⟩ d logs)
    (here : d.world.popping polling .tensors = true)
    (spec : Popped (QueueName.place .tensors) memory (queues .tensors) memory' queue)
    (returned : queue.returned = (queues .tensors).returned ++ [tensor])
    (idle : queue.popper = .idle) (oldest : (queues .tensors).held = tensor :: queue.held) :
    Moved ⟨memory', Function.update queues .tensors queue,
      { d.still with world := d.still.world.popped .tensors (.returned tensor) }, seen, polling,
      stored⟩ d .ap := by
  have ap := popping_tensors here
  have items : d.world.tensors.items = (queues .tensors).held := inv.items .tensors
  rw [oldest] at items
  have short : queue.held.length ≤ m.tensorCap := held_short spec.inv
  have popped : d.world.tensors.pop = some (tensor, ⟨queue.held, short⟩) :=
    (pop_some_iff _ _ _).mpr items
  have real : coreStep d.world .ap = .moves { d.world with
      tensors := ⟨queue.held, short⟩, ap := .reducing tensor } := by
    simp only [coreStep, apStep, ap, popped]
  have shown := data_step_moves real
  rw [ap_after (by simp [ap]) (by simp [ap])] at shown
  refine pop_lands inv spec idle shown rfl rfl ⟨rfl, rfl, rfl, rfl, ?_,
    by simp [ap, ApPc.pastReducing], by simp, by simp [ap, ApPc.took], ?_, ?_, ?_, ?_⟩
  · intro p other
    cases p <;> first | rfl | exact absurd rfl other
  · intro p other
    cases p with
    | completion => simp [World.pushing, ap]
    | _ => exact Or.inr rfl
  · intro p other
    cases p with
    | interCore => simp [World.popping, ap]
    | completion => exact Or.inr rfl
    | tensors => exact absurd rfl other
  · intro polls
    have working := (inv.calls.polled polls).1
    rw [ap] at working
    cases working
  · have counts : CountInv queues d.world := inv.counts
    have answered := counts.answered
    rw [ap] at answered
    constructor
    · rw [Function.update_of_ne (by decide)]
      exact counts.sent
    · rw [Function.update_of_ne (by decide), Function.update_of_ne (by decide)]
      exact answered
    · rw [Function.update_self, spec.accepted]
      exact counts.offered
    · intro _
      rw [Function.update_self, returned, List.length_append]
      exact Nat.succ_pos _

theorem reporting_moves {report : Report m.batch.length} (here : w.bsp = .reporting report)
    (more : report.reports < m.batch.length) {result : WorkResult}
    {completion : Fifo WorkResult m.completionCap}
    (popped : w.completion.pop = some (result, completion)) :
    ∃ pc, coreStep w .bsp = .moves { w with
        completion := completion, reported := w.reported ++ [result], bsp := pc } ∧
      w.still.recorded result =
        { w.still with reported := w.reported ++ [result], bsp := pc } ∧ pc.offered = 1 := by
  cases recorded : report.record result with
  | none =>
    refine ⟨.halted .countOverflow none, ?_, ?_, rfl⟩
    · simp only [coreStep, bspStep, here, if_pos more, popped, recorded]
    · simp only [World.recorded, still_bsp, here, recorded]
      rfl
  | some later =>
    refine ⟨.reporting later, ?_, ?_, rfl⟩
    · simp only [coreStep, bspStep, here, if_pos more, popped, recorded]
    · simp only [World.recorded, still_bsp, here, recorded]
      rfl

theorem completion_popped {queue : Ring Core Atomic WorkResult m.completionCap}
    {result : WorkResult}
    (inv : WeakKernelInv ⟨memory, queues, d.still, seen, polling, stored⟩ d logs)
    (here : d.world.popping polling .completion = true)
    (spec : Popped (QueueName.place .completion) memory (queues .completion) memory' queue)
    (idle : queue.popper = .idle) (oldest : (queues .completion).held = result :: queue.held) :
    Moved ⟨memory', Function.update queues .completion queue,
      { d.still with world := d.still.world.popped .completion (.returned result) }, seen, polling,
      stored⟩ d .bsp := by
  obtain ⟨report, bsp, more⟩ := popping_completion here
  have items : d.world.completion.items = (queues .completion).held := inv.items .completion
  rw [oldest] at items
  have short : queue.held.length ≤ m.completionCap := held_short spec.inv
  have popped : d.world.completion.pop = some (result, ⟨queue.held, short⟩) :=
    (pop_some_iff _ _ _).mpr items
  obtain ⟨pc, real, recorded, offered⟩ := reporting_moves bsp more popped
  have shown := data_step_moves real
  rw [reporting_after bsp] at shown
  refine pop_lands inv spec idle shown recorded rfl ⟨rfl, rfl, rfl, rfl, ?_, id, fun _ => id, id,
    ?_, ?_, inv.calls.polled, ?_⟩
  · intro p other
    cases p <;> first | rfl | exact absurd rfl other
  · intro p other
    cases p with
    | completion => exact absurd rfl other
    | _ => simp [World.pushing, bsp]
  · intro p other
    cases p with
    | completion => exact absurd rfl other
    | _ => exact Or.inr rfl
  · have counts : CountInv queues d.world := inv.counts
    constructor
    · rw [Function.update_of_ne (by decide)]
      exact counts.sent
    · rw [Function.update_self, Function.update_of_ne (by decide), spec.accepted]
      exact counts.answered
    · rw [Function.update_of_ne (by decide), offered]
      have before := counts.offered
      rw [bsp] at before
      exact before
    · rw [Function.update_of_ne (by decide)]
      exact counts.took

theorem weak_pop {k k' : WeakKernel m} (fits : ∀ q : QueueName, q.cap m < 2 ^ 64)
    (inv : WeakKernelInv k d logs) {a : PopAction q.Item}
    (ran : weakKernelStep k (.pop q a) = some k') :
    (Showing k' d ∧ (k'.queues q).returned = (k.queues q).returned) ∨
      Moved k' d q.consumer := by
  obtain ⟨memory, queues, cores, seen, polling, stored⟩ := k
  have same : cores = d.still := inv.cores
  subst same
  simp only [weakKernelStep, DataWorld.still, still_popping] at ran
  split at ran
  · rename_i here
    obtain ⟨⟨memory', queue⟩, moved, same⟩ := Option.map_eq_some_iff.mp ran
    have updated := congrArg Ring.returned (Function.update_self q queue queues)
    have spec := pop_spec (fits q) (inv.memory.queues q) moved
    rcases spec.reply with ⟨reply, kept⟩ | ⟨reply, kept, idle, _⟩ |
      ⟨item, reply, returned, idle, oldest⟩
    · simp only [reply] at same
      subst same
      have stays : d.world.still.popped q .running = d.world.still := by cases q <;> rfl
      have polls : pollingAfter polling q .running = polling := by cases q <;> rfl
      rw [stays]
      refine Or.inl ⟨⟨logs, pop_waits inv spec kept ?_⟩, updated.trans kept⟩
      intro _
      rw [polls]
      exact here
    · simp only [reply] at same
      subst same
      have stays : d.world.still.popped q .empty = d.world.still := by cases q <;> rfl
      rw [stays]
      exact Or.inl ⟨⟨logs, pop_waits inv spec kept fun under => absurd idle under⟩,
        updated.trans kept⟩
    · simp only [reply] at same
      subst same
      cases q with
      | interCore => exact Or.inr (inter_core_popped inv here spec returned idle oldest)
      | completion => exact Or.inr (completion_popped inv here spec idle oldest)
      | tensors => exact Or.inr (tensor_popped inv here spec returned idle oldest)
  · cases ran

end CellKernel
