import CellKernel.Executions
import CellKernel.WeakKernelRuns

/-
Infinite executions of the kernel over release and acquire memory. If no message
stays hidden from the loads forever, neither core waits forever: every fair
execution ends with both cores at their end and the whole batch reported.
-/
namespace CellKernel
open CellCore CellFifo CellInterleaving CellQueue CellRuns CellTensor CellWeak Filter
  ReleaseAcquire

variable {m : Machine} {bytes : Bytes} {k k' : WeakKernel m} {d : DataWorld m} {q : QueueName}
  {a : KernelAction} {core : Core}

abbrev WeakExecution (m : Machine) (bytes : Bytes) :=
  Execution weakKernelStep (WeakKernel.start m bytes)

/-- A message is not hidden forever: from some time on no load returns an older
    one. -/
def WeakExecution.Visible (e : WeakExecution m bytes) : Prop :=
  ∀ n l time message, (e.states n).memory.messages l time = some message →
    ∀ᶠ later in atTop, ∀ a loaded, e.actions later = some a → a.loads = some (l, loaded) →
      time ≤ loaded

def WeakKernel.rank (k : WeakKernel m) : Nat :=
  k.cores.world.bsp.left + k.cores.world.ap.left + 5 * k.cores.world.unsent.length +
    4 * (k.queues .interCore).held.length + (k.queues .completion).held.length

/-- The accesses that each core has left until the step that shows, as long as
    its loads return the newest messages. -/
def WeakKernel.lag (k : WeakKernel m) : Core → Nat
  | .bsp =>
      (k.queues .interCore).pusher.left + (k.queues .tensors).pusher.left +
        (k.queues .completion).popper.left + if k.seen then 0 else 1
  | .ap =>
      (k.queues .completion).pusher.left + (k.queues .interCore).popper.left +
        (k.queues .tensors).popper.left + (if k.polling then 0 else 1) +
          if k.stored then 0 else 1

theorem rank_shown (showing : Showing k d) : k.rank = d.world.rank := by
  obtain ⟨logs, inv⟩ := showing
  have interCore : d.world.interCore.items = (k.queues .interCore).held := inv.items .interCore
  have completion : d.world.completion.items = (k.queues .completion).held :=
    inv.items .completion
  rw [WeakKernel.rank, World.rank, inv.cores, interCore, completion]
  rfl

theorem move_lowers (showing : Showing k d)
    (reached : Reachable dataStep (DataWorld.start m bytes) d) {next : World m}
    (moves : coreStep d.world core = .moves next) (moved : Moved k' d core) :
    k'.rank < k.rank := by
  obtain ⟨e, taken, showing'⟩ := moved
  have same : e = d.after next core := by
    rw [data_step_moves moves] at taken
    exact (Option.some.inj taken).symm
  rw [rank_shown showing', rank_shown showing, same, after_world]
  exact rank_lowered (data_run_projects reached) moves

theorem step_falls (fits : ∀ q : QueueName, q.cap m < 2 ^ 64) (showing : Showing k d)
    (reached : Reachable dataStep (DataWorld.start m bytes) d)
    (ran : weakKernelStep k a = some k') : Showing k' d ∨ k'.rank < k.rank := by
  rcases weak_kernel_step fits showing reached ran with stays | moved
  · exact Or.inl stays
  · obtain ⟨e, taken, showing'⟩ : ∃ e, dataStep d a.core = some e ∧ Showing k' e := moved
    rcases data_step_cases taken with ⟨next, moves, _⟩ | rfl
    · exact Or.inr (move_lowers showing reached moves ⟨e, taken, showing'⟩)
    · exact Or.inl showing'

theorem push_changes (fits : ∀ q : QueueName, q.cap m < 2 ^ 64) (showing : Showing k d)
    {access : PushAccess} (ran : weakKernelStep k (.push q access) = some k') :
    ∃ item queue, d.world.pushing q = some item ∧
      pushStep q.place k.memory (k.queues q) (access.pushing item) = some (k'.memory, queue) ∧
      k'.queues = Function.update k.queues q queue ∧ queue.popper = (k.queues q).popper ∧
      k'.seen = k.seen ∧ k'.polling = k.polling ∧ k'.stored = k.stored := by
  obtain ⟨logs, inv⟩ := showing
  simp only [weakKernelStep] at ran
  split at ran
  · rename_i item here
    obtain ⟨⟨memory, queue⟩, pushed, same⟩ := Option.map_eq_some_iff.mp ran
    subst same
    have spec := push_spec (fits q) (inv.memory.queues q)
      (in_range inv.memory inv.counts q) pushed
    rw [inv.cores] at here
    exact ⟨item, queue, (still_pushing d.world q).symm.trans here, pushed, rfl, spec.popper, rfl,
      rfl, rfl⟩
  · cases ran

theorem pop_changes (fits : ∀ q : QueueName, q.cap m < 2 ^ 64) (showing : Showing k d)
    {access : PopAction q.Item} (ran : weakKernelStep k (.pop q access) = some k') :
    ∃ queue, d.world.popping k.polling q = true ∧
      popStep q.place k.memory (k.queues q) access = some (k'.memory, queue) ∧
      k'.queues = Function.update k.queues q queue ∧ queue.pusher = (k.queues q).pusher ∧
      k'.seen = k.seen ∧ k'.stored = k.stored ∧
      k'.polling = pollingAfter k.polling q (popReply (k.queues q).popper queue.popper) := by
  obtain ⟨logs, inv⟩ := showing
  simp only [weakKernelStep] at ran
  split at ran
  · rename_i here
    obtain ⟨⟨memory, queue⟩, popped, same⟩ := Option.map_eq_some_iff.mp ran
    subst same
    have spec := pop_spec (fits q) (inv.memory.queues q) popped
    rw [inv.cores] at here
    exact ⟨queue, (still_popping d.world k.polling q).symm.trans here, popped, rfl, spec.pusher,
      rfl, rfl, rfl⟩
  · cases ran

theorem lag_kept (fits : ∀ q : QueueName, q.cap m < 2 ^ 64) (showing : Showing k d)
    (ran : weakKernelStep k a = some k') (other : a.core ≠ core) : k'.lag core = k.lag core := by
  cases a with
  | own c =>
    simp only [weakKernelStep] at ran
    split at ran
    · split at ran
      · cases ran
        rfl
      · cases ran
    · cases ran
  | push q access =>
    obtain ⟨item, queue, _, _, queues, popper, seen, polling, stored⟩ :=
      push_changes fits showing ran
    cases q <;> cases core <;>
      simp_all [WeakKernel.lag, KernelAction.core, QueueName.producer]
  | pop q access =>
    obtain ⟨queue, _, _, queues, pusher, seen, stored, polling⟩ := pop_changes fits showing ran
    cases q <;> cases core <;>
      simp_all [WeakKernel.lag, KernelAction.core, QueueName.consumer, pollingAfter]
  | awaitAp time | awaitTensor time | loadSum time =>
    cases core with
    | bsp => exact absurd rfl other
    | ap =>
      simp only [weakKernelStep] at ran
      split at ran
      · obtain ⟨_, _, same⟩ := Option.map_eq_some_iff.mp ran
        subst same
        rfl
      · cases ran
  | loadProcessed time =>
    cases core with
    | bsp =>
      simp only [weakKernelStep] at ran
      split at ran
      · obtain ⟨_, _, same⟩ := Option.map_eq_some_iff.mp ran
        subst same
        split <;> rfl
      · cases ran
    | ap => exact absurd rfl other
  | announce time | countProcessed time | storeSum time | complete time =>
    cases core with
    | bsp =>
      simp only [weakKernelStep] at ran
      split at ran
      · obtain ⟨_, _, same⟩ := Option.map_eq_some_iff.mp ran
        subst same
        rfl
      · cases ran
    | ap => exact absurd rfl other

theorem pushing_room (showing : Showing k d) (room : 0 < m.tensorCap) {item : q.Item}
    (pushing : d.world.pushing q = some item) {next : World m}
    (moves : coreStep d.world q.producer = .moves next) : (d.world.items q).length < q.cap m := by
  by_contra full
  cases q with
  | interCore =>
    have none : d.world.interCore.push item = none :=
      (push_none_iff _ _).mpr (Nat.le_antisymm d.world.interCore.bounded (Nat.le_of_not_lt full))
    simp only [World.pushing] at pushing
    split at pushing
    · rename_i tensor bsp
      cases unsent : d.world.unsent with
      | nil => simp [unsent] at pushing
      | cons raw rest =>
        rw [unsent, List.head?_cons, Option.some.injEq] at pushing
        subst pushing
        simp [QueueName.producer, coreStep, bspStep, bsp, unsent, none] at moves
    · cases pushing
  | completion =>
    have none : d.world.completion.push item = none :=
      (push_none_iff _ _).mpr (Nat.le_antisymm d.world.completion.bounded (Nat.le_of_not_lt full))
    simp only [World.pushing] at pushing
    split at pushing
    · rename_i raw result ap
      cases pushing
      simp [QueueName.producer, coreStep, apStep, ap, none] at moves
    · cases pushing
  | tensors =>
    obtain ⟨logs, inv⟩ := showing
    have offered : (k.queues .tensors).accepted.length ≤ d.world.bsp.offered := inv.counts.offered
    simp only [World.pushing] at pushing
    split at pushing
    · rename_i tensor bsp _
      rw [bsp, BspPc.offered] at offered
      rw [inv.items, Ring.held, List.length_drop] at full
      exact full ((Nat.sub_le ..).trans_lt (Nat.lt_of_le_of_lt offered room))
    · cases pushing

theorem popping_held (showing : Showing k d) (popping : d.world.popping k.polling q = true)
    {next : World m} (moves : coreStep d.world q.consumer = .moves next) :
    d.world.items q ≠ [] := by
  intro empty
  cases q with
  | interCore =>
    have none : d.world.interCore.pop = none := (pop_none_iff _).mpr empty
    simp only [World.popping] at popping
    split at popping
    · rename_i ap
      obtain ⟨logs, inv⟩ := showing
      have more := (inv.calls.polled popping).2
      simp [QueueName.consumer, coreStep, apStep, ap, more, none] at moves
    · cases popping
  | completion =>
    have none : d.world.completion.pop = none := (pop_none_iff _).mpr empty
    simp only [World.popping] at popping
    split at popping
    · rename_i report bsp
      have more := of_decide_eq_true popping
      simp [QueueName.consumer, coreStep, bspStep, bsp, more, none] at moves
    · cases popping
  | tensors =>
    have none : d.world.tensors.pop = none := (pop_none_iff _).mpr empty
    simp only [World.popping] at popping
    split at popping
    · rename_i ap
      simp [QueueName.consumer, coreStep, apStep, ap, none] at moves
    · cases popping

theorem load_flag (showing : Showing k d) {f : Flag} (known : f ≠ .tensorSumBits) {time : Nat}
    {order : LoadOrder} {value : UInt64} {memory : KernelMemory}
    (loaded : k.memory.load core (.flag f) time order = some (value, memory))
    (newest : ∀ later, time < later → k.memory.messages (.flag f) later = none) :
    value = d.flag f := by
  obtain ⟨logs, inv⟩ := showing
  obtain ⟨message, last, rfl⟩ := load_newest (inv.memory.flags f) loaded newest
  obtain ⟨e, there, value⟩ := inv.flags.newest f fun same => absurd same known
  rw [last] at there
  cases there
  exact value

section
variable (showing : Showing k d) (reached : Reachable dataStep (DataWorld.start m bytes) d)
  {next : World m}
include showing reached

theorem push_lowers (fits : ∀ q : QueueName, q.cap m < 2 ^ 64) (room : 0 < m.tensorCap)
    {access : PushAccess} (moves : coreStep d.world q.producer = .moves next)
    (ran : weakKernelStep k (.push q access) = some k')
    (newest : ∀ time, access = .check time →
      ∀ later, time < later → k.memory.messages (.tail q) later = none) :
    k'.rank < k.rank ∨ k'.lag q.producer < k.lag q.producer := by
  obtain ⟨logs, inv⟩ := id showing
  rcases weak_push fits inv ran with ⟨_, accepted⟩ | moved
  · obtain ⟨item, queue, pushing, pushed, queues, _, seen, polling, stored⟩ :=
      push_changes fits showing ran
    have free := pushing_room showing room pushing moves
    rw [inv.items q] at free
    have advanced := push_goes_on (fits q) (inv.memory.queues q) free pushed (by
      intro time same
      cases access with
      | check => cases same; exact newest time rfl
      | _ => cases same)
    rw [queues, Function.update_self] at accepted
    have lower := advanced.resolve_left fun other => other accepted
    right
    cases q <;> simp [QueueName.producer, WeakKernel.lag, queues, seen, polling, stored, lower]
  · exact Or.inl (move_lowers showing reached moves moved)

theorem pop_lowers (fits : ∀ q : QueueName, q.cap m < 2 ^ 64) {access : PopAction q.Item}
    (moves : coreStep d.world q.consumer = .moves next)
    (ran : weakKernelStep k (.pop q access) = some k')
    (newest : ∀ time, access = .check time →
      ∀ later, time < later → k.memory.messages (.head q) later = none) :
    k'.rank < k.rank ∨ k'.lag q.consumer < k.lag q.consumer := by
  obtain ⟨logs, inv⟩ := id showing
  rcases weak_pop fits inv ran with ⟨_, returned⟩ | moved
  · obtain ⟨queue, popping, popped, queues, _, seen, stored, polling⟩ :=
      pop_changes fits showing ran
    have held := popping_held showing popping moves
    rw [inv.items q] at held
    have advanced := pop_goes_on (fits q) (inv.memory.queues q) held popped newest
    rw [queues, Function.update_self] at returned
    have lower := advanced.resolve_left fun other => other returned
    have same : k'.polling = k.polling := by
      rw [polling, (lowered_running lower).2]
      cases q <;> rfl
    right
    cases q <;> simp [QueueName.consumer, WeakKernel.lag, queues, seen, same, stored, lower]
  · exact Or.inl (move_lowers showing reached moves moved)

theorem await_ap_lowers {time : Nat} (moves : coreStep d.world .bsp = .moves next)
    (ran : weakKernelStep k (.awaitAp time) = some k')
    (newest : ∀ later, time < later → k.memory.messages (.flag .apReady) later = none) :
    k'.rank < k.rank := by
  obtain ⟨logs, inv⟩ := id showing
  rcases weak_await_ap inv ran with ⟨_, same⟩ | moved
  · simp only [weakKernelStep] at ran
    split at ran
    · rename_i tensor here
      obtain ⟨⟨ready, memory⟩, loaded, rfl⟩ := Option.map_eq_some_iff.mp ran
      have bsp : d.world.bsp = .awaitingAp tensor := by
        rw [inv.cores] at here
        exact here
      have told := load_flag showing (by simp) loaded newest
      have raised : d.world.apReady = true := by
        by_contra unready
        simp [coreStep, bspStep, bsp, unready] at moves
      simp only [DataWorld.flag, raised, if_true] at told
      subst told
      have kept := congrArg (fun e : DataWorld m => e.world.bsp) same
      simp [here, DataWorld.bspAt] at kept
    · cases ran
  · exact move_lowers showing reached moves moved

omit reached in
theorem await_tensor_lowers {time : Nat} (moves : coreStep d.world .bsp = .moves next)
    (ran : weakKernelStep k (.awaitTensor time) = some k')
    (newest : ∀ later, time < later → k.memory.messages (.flag .tensorComplete) later = none) :
    k'.lag .bsp < k.lag .bsp := by
  obtain ⟨logs, inv⟩ := id showing
  simp only [weakKernelStep] at ran
  split at ran
  · rename_i here unseen
    obtain ⟨⟨complete, memory⟩, loaded, rfl⟩ := Option.map_eq_some_iff.mp ran
    have bsp : d.world.bsp = .awaitingTensor := by
      rw [inv.cores] at here
      exact here
    have told := load_flag showing (by simp) loaded newest
    have raised : d.world.tensorComplete = true := by
      by_contra incomplete
      simp [coreStep, bspStep, bsp, incomplete] at moves
    simp only [DataWorld.flag, raised, if_true] at told
    subst told
    simp [WeakKernel.lag, unseen]
  · cases ran

theorem load_processed_lowers {time : Nat} (moves : coreStep d.world .ap = .moves next)
    (ran : weakKernelStep k (.loadProcessed time) = some k') :
    k'.rank < k.rank ∨ k'.lag .ap < k.lag .ap := by
  obtain ⟨logs, inv⟩ := id showing
  rcases weak_load_processed inv (processed_bounded (data_run_projects reached)) ran with
    ⟨_, polls⟩ | moved
  · simp only [weakKernelStep] at ran
    split at ran
    · rename_i here unpolled
      obtain ⟨⟨processed, memory⟩, loaded, rfl⟩ := Option.map_eq_some_iff.mp ran
      right
      split at polls
      · rename_i more
        simp [WeakKernel.lag, unpolled, more]
      · simp [unpolled] at polls
    · cases ran
  · exact Or.inl (move_lowers showing reached moves moved)

end

theorem store_sum_lowers {time : Nat} (ran : weakKernelStep k (.storeSum time) = some k') :
    k'.lag .ap < k.lag .ap := by
  simp only [weakKernelStep] at ran
  split at ran
  · rename_i physAddr here unstored
    obtain ⟨memory, put, rfl⟩ := Option.map_eq_some_iff.mp ran
    simp [WeakKernel.lag, unstored]
  · cases ran

/-- Where the core can go on, each of its accesses that loads the newest message
    brings it closer. -/
theorem turn_lowers (fits : ∀ q : QueueName, q.cap m < 2 ^ 64) (room : 0 < m.tensorCap)
    (showing : Showing k d) (reached : Reachable dataStep (DataWorld.start m bytes) d)
    {next : World m} (moves : coreStep d.world a.core = .moves next)
    (ran : weakKernelStep k a = some k')
    (newest : ∀ l time, a.loads = some (l, time) → l ≠ .flag .tensorSumBits →
      ∀ later, time < later → k.memory.messages l later = none) :
    k'.rank < k.rank ∨ k'.lag a.core < k.lag a.core := by
  have lowers : Moved k' d a.core → k'.rank < k.rank := move_lowers showing reached moves
  obtain ⟨logs, inv⟩ := id showing
  cases a with
  | own core => exact Or.inl (lowers (weak_own showing reached ran))
  | push q access =>
    refine push_lowers showing reached fits room moves ran ?_
    rintro time rfl
    exact newest _ _ rfl (by simp)
  | pop q access =>
    refine pop_lowers showing reached fits moves ran ?_
    rintro time rfl
    exact newest _ _ rfl (by simp)
  | awaitAp time =>
    exact Or.inl (await_ap_lowers showing reached moves ran (newest _ _ rfl (by simp)))
  | awaitTensor time =>
    exact Or.inr (await_tensor_lowers showing moves ran (newest _ _ rfl (by simp)))
  | loadSum time => exact Or.inl (lowers (weak_load_sum inv ran))
  | announce time => exact Or.inl (lowers (weak_announce inv ran))
  | loadProcessed time => exact load_processed_lowers showing reached moves ran
  | countProcessed time => exact Or.inl (lowers (weak_count_processed inv ran))
  | storeSum time => exact Or.inr (store_sum_lowers ran)
  | complete time => exact Or.inl (lowers (weak_complete inv ran))

theorem core_able (fits : ∀ q : QueueName, q.cap m < 2 ^ 64) (room : 0 < m.tensorCap)
    (showing : Showing k d) (reached : Reachable dataStep (DataWorld.start m bytes) d)
    {next : World m} (moves : coreStep d.world core = .moves next) :
    ∃ a, KernelAction.core a = core ∧ weakKernelStep k a ≠ none := by
  obtain ⟨k', ran, moved⟩ := move_realized fits room showing reached moves
  have lower := move_lowers showing reached moves moved
  rcases reaches_first ran with rfl | ⟨a, next, own, taken⟩
  · exact absurd lower (Nat.lt_irrefl _)
  · refine ⟨a, own, ?_⟩
    rw [taken]
    exact Option.some_ne_none next

theorem quiet_messages (fits : ∀ q : QueueName, q.cap m < 2 ^ 64) (showing : Showing k d)
    (stays : Showing k' d) (ran : weakKernelStep k a = some k') {l : Atomic}
    (other : l ≠ .flag .tensorSumBits) : k'.memory.messages l = k.memory.messages l := by
  obtain ⟨logs, inv⟩ := id showing
  obtain ⟨later, kept⟩ := stays
  have ap : k'.cores.world.ap = k.cores.world.ap := by rw [kept.cores, inv.cores]
  cases a with
  | own core =>
    simp only [weakKernelStep] at ran
    split at ran
    · split at ran
      · cases ran
        simp only [WeakKernel.accessed]
        split <;> rfl
      · cases ran
    · cases ran
  | push q access =>
    obtain ⟨item, queue, _, pushed, queues, _⟩ := push_changes fits showing ran
    have spec := push_spec (fits q) (inv.memory.queues q)
      (in_range inv.memory inv.counts q) pushed
    have held : queue.held = (k.queues q).held := by
      rw [← inv.items q, kept.items q, queues, Function.update_self]
    rcases spec.reply with ⟨_, same⟩ | ⟨_, same, _⟩ | ⟨new, _, _, _, _, _, longer⟩
    · exact congrFun (push_messages pushed same) l
    · exact congrFun (push_messages pushed same) l
    · rw [held] at longer
      simp at longer
  | pop q access =>
    obtain ⟨queue, _, popped, queues, _⟩ := pop_changes fits showing ran
    have held : queue.held = (k.queues q).held := by
      rw [← inv.items q, kept.items q, queues, Function.update_self]
    rcases (pop_spec (fits q) (inv.memory.queues q) popped).reply with
      ⟨_, same⟩ | ⟨_, same, _⟩ | ⟨old, _, _, _, shorter⟩
    · exact congrFun (pop_messages popped same) l
    · exact congrFun (pop_messages popped same) l
    · rw [held] at shorter
      simp at shorter
  | awaitAp time | awaitTensor time | loadSum time =>
    simp only [weakKernelStep] at ran
    split at ran
    · obtain ⟨⟨value, memory⟩, loaded, rfl⟩ := Option.map_eq_some_iff.mp ran
      exact congrFun (load_messages loaded) l
    · cases ran
  | loadProcessed time =>
    simp only [weakKernelStep] at ran
    split at ran
    · obtain ⟨⟨value, memory⟩, loaded, rfl⟩ := Option.map_eq_some_iff.mp ran
      have same := congrFun (load_messages loaded) l
      split <;> exact same
    · cases ran
  | storeSum time =>
    simp only [weakKernelStep] at ran
    split at ran
    · obtain ⟨memory, put, rfl⟩ := Option.map_eq_some_iff.mp ran
      exact store_messages put other
    · cases ran
  | announce time | countProcessed time | complete time =>
    simp only [weakKernelStep] at ran
    split at ran
    · rename_i here
      obtain ⟨_, _, rfl⟩ := Option.map_eq_some_iff.mp ran
      simp [here, DataWorld.apAt, DataWorld.apData] at ap
    · cases ran

theorem newest_known (showing : Showing k d) (l : Atomic) :
    ∃ time message, k.memory.messages l time = some message ∧
      ∀ later, time < later → k.memory.messages l later = none := by
  obtain ⟨logs, inv⟩ := showing
  cases l with
  | head q =>
    obtain ⟨e, last⟩ := published_last (inv.memory.queues q).heads
    exact ⟨e.1, e.2, newest_message (inv.memory.queues q).heads last⟩
  | tail q =>
    obtain ⟨e, last⟩ := published_last (inv.memory.queues q).tails
    exact ⟨e.1, e.2, newest_message (inv.memory.queues q).tails last⟩
  | flag f =>
    obtain ⟨e, last⟩ := published_last (inv.memory.flags f)
    exact ⟨e.1, e.2, newest_message (inv.memory.flags f) last⟩

instance : Fintype QueueName where
  elems := {.interCore, .completion, .tensors}
  complete := by
    intro q
    cases q <;> decide

instance : Fintype Flag where
  elems := {.apReady, .apProcessed, .tensorComplete, .tensorSumBits}
  complete := by
    intro f
    cases f <;> decide

instance : Finite Atomic := by
  apply Finite.of_surjective (Sum.elim Atomic.head (Sum.elim Atomic.tail Atomic.flag))
  intro l
  cases l with
  | head q => exact ⟨.inl q, rfl⟩
  | tail q => exact ⟨.inr (.inl q), rfl⟩
  | flag f => exact ⟨.inr (.inr f), rfl⟩

namespace WeakExecution
variable (e : WeakExecution m bytes)

theorem rank_rests (fits : ∀ q : QueueName, q.cap m < 2 ^ 64) :
    ∀ᶠ n in atTop, (e.states (n + 1)).rank = (e.states n).rank := by
  have falls : ∀ n, (e.states (n + 1)).rank ≤ (e.states n).rank := by
    intro n
    cases action : e.actions n with
    | none => rw [e.idle n action]
    | some a =>
      obtain ⟨d, reached, showing⟩ := weak_kernel_showing fits (e.reachable n)
      rcases step_falls fits showing reached (e.taken n a action) with stays | lower
      · rw [rank_shown showing, rank_shown stays]
      · exact lower.le
  exact comes_to_rest (f := fun n => (e.states n).rank) (Eventually.of_forall falls)

theorem shows_one (fits : ∀ q : QueueName, q.cap m < 2 ^ 64) :
    ∃ n d, Reachable dataStep (DataWorld.start m bytes) d ∧
      ∀ later, n ≤ later → Showing (e.states later) d := by
  obtain ⟨n, rest⟩ := eventually_atTop.mp (e.rank_rests fits)
  obtain ⟨d, reached, showing⟩ := weak_kernel_showing fits (e.reachable n)
  refine ⟨n, d, reached, ?_⟩
  intro later after
  induction later, after using Nat.le_induction with
  | base => exact showing
  | succ later after ih =>
    cases action : e.actions later with
    | none =>
      rw [e.idle later action]
      exact ih
    | some a =>
      rcases step_falls fits ih reached (e.taken later a action) with stays | lower
      · exact stays
      · exact absurd (rest later after) lower.ne

/-- Then every load returns the newest message sooner or later, except for the
    sum. -/
theorem loads_newest (fits : ∀ q : QueueName, q.cap m < 2 ^ 64) (visible : e.Visible) {n : Nat}
    (showing : ∀ later, n ≤ later → Showing (e.states later) d) :
    ∀ᶠ later in atTop, ∀ l, l ≠ .flag .tensorSumBits → ∀ a time, e.actions later = some a →
      a.loads = some (l, time) →
        ∀ after, time < after → (e.states later).memory.messages l after = none := by
  apply eventually_all.mpr
  intro l
  by_cases sum : l = .flag .tensorSumBits
  · exact Eventually.of_forall fun _ other => absurd sum other
  · obtain ⟨newest, message, there, none⟩ := newest_known (showing n (le_refl n)) l
    have same : ∀ later, n ≤ later →
        (e.states later).memory.messages l = (e.states n).memory.messages l := by
      intro later after
      induction later, after using Nat.le_induction with
      | base => rfl
      | succ later after ih =>
        cases action : e.actions later with
        | none => rw [e.idle later action, ih]
        | some a =>
          rw [← ih]
          exact quiet_messages fits (showing later after) (showing (later + 1) (by omega))
            (e.taken later a action) sum
    filter_upwards [visible n l newest message there, eventually_ge_atTop n] with later known past
      _ a time action loads after beyond
    rw [same later past]
    exact none after (Nat.lt_of_le_of_lt (known a time action loads) beyond)

/-- In a fair execution no core that can go on waits forever. -/
theorem settles_shown (fits : ∀ q : QueueName, q.cap m < 2 ^ 64) (room : 0 < m.tensorCap)
    (fair : e.Fair KernelAction.core) (visible : e.Visible) :
    ∃ n d, Reachable dataStep (DataWorld.start m bytes) d ∧
      (∀ later, n ≤ later → Showing (e.states later) d) ∧
      ∀ core next, coreStep d.world core ≠ .moves next := by
  obtain ⟨n, d, reached, showing⟩ := e.shows_one fits
  refine ⟨n, d, reached, showing, ?_⟩
  intro core next moves
  have same : ∀ later, n ≤ later → (e.states (later + 1)).rank = (e.states later).rank := by
    intro later after
    rw [rank_shown (showing later after), rank_shown (showing (later + 1) (by omega))]
  apply fair.cannot_wait core fun n => (e.states n).lag core
  · filter_upwards [eventually_ge_atTop n] with later after a action other
    exact (lag_kept fits (showing later after) (e.taken later a action) other).le
  · filter_upwards with later waits
    rw [e.idle later waits]
  · filter_upwards [eventually_ge_atTop n] with later after
    exact core_able fits room (showing later after) reached moves
  · filter_upwards [e.loads_newest fits visible showing, eventually_ge_atTop n] with
      later newest after a action own
    subst own
    have lower := turn_lowers fits room (showing later after) reached moves
      (e.taken later a action) fun l time loads other => newest l other a time action loads
    exact lower.resolve_left (same later after).not_lt

end WeakExecution

/-- Every fair execution over release and acquire memory ends: if no message
    stays hidden, both cores come to their end with the whole batch reported in
    order, and stay there. -/
theorem fair_weak_run_ends (b : Boot m) (fits : ∀ q : QueueName, q.cap m < 2 ^ 64)
    (inter : 0 < m.interCap) (room : 0 < m.tensorCap) (holds : m.batch.length ≤ m.completionCap)
    (small : m.batch.length < 2 ^ 31) (e : WeakExecution m bytes)
    (fair : e.Fair KernelAction.core) (visible : e.Visible) :
    ∃ n report, ∀ later, n ≤ later → (e.states later).cores.world.bsp = .finished report ∧
      (e.states later).cores.world.ap = .finished ∧
      (e.states later).cores.world.reported = m.batch.map workResult ∧
      (e.states later).cores.verdict = some true := by
  obtain ⟨n, d, reached, showing, settled⟩ := e.settles_shown fits room fair visible
  have projected := data_run_projects reached
  obtain ⟨⟨report, bsp⟩, ap⟩ := settled_is_end b inter room holds small projected settled
  have knows := (data_invariant b.toFrames room reached).ap
  rw [ap] at knows
  refine ⟨n, report, ?_⟩
  intro later after
  obtain ⟨logs, inv⟩ := showing later after
  rw [inv.cores]
  exact ⟨bsp, ap, (finished_reports_batch projected bsp).1, knows.2⟩

theorem ended_rests {report : Report m.batch.length}
    (bsp : k.cores.world.bsp = .finished report) (ap : k.cores.world.ap = .finished)
    (a : KernelAction) : weakKernelStep k a = none := by
  cases a with
  | own core => cases core <;> simp [weakKernelStep, WeakKernel.ownNext, bsp, ap]
  | push q access => cases q <;> simp [weakKernelStep, World.pushing, bsp, ap]
  | pop q access => cases q <;> simp [weakKernelStep, World.popping, bsp, ap]
  | _ => simp [weakKernelStep, bsp, ap]

theorem fair_weak_run_ends_two_packets :
    ∃ e : WeakExecution (twoPacketMachine 2) fun _ => 0, e.Fair KernelAction.core ∧ e.Visible ∧
      ∃ n, ∀ later, n ≤ later →
        (e.states later).cores.world.reported = (twoPacketMachine 2).batch.map workResult := by
  obtain ⟨b, k, report, reached, bsp, ap⟩ := two_packet_end
  obtain ⟨e, n, rests⟩ := execution_of_reachable reached
  have fair : e.Fair KernelAction.core :=
    Execution.fair_of_rest (fun later after => (rests later after).1) (ended_rests bsp ap)
  have visible : WeakExecution.Visible e := by
    intro _ l time message _
    filter_upwards [eventually_ge_atTop n] with later after a loaded action
    rw [(rests later after).2] at action
    cases action
  obtain ⟨last, _, ends⟩ := fair_weak_run_ends b two_packet_caps (by decide) (by decide)
    (by decide) (by decide) e fair visible
  exact ⟨e, fair, visible, last, fun later after => (ends later after).2.2.1⟩

end CellKernel
