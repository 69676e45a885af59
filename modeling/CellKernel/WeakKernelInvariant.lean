import CellKernel.WeakKernel

/-
What holds of the memory of the two cores beside the state that it shows. Each
part of the invariant reads only what it is about, and has one lemma for steps
that leave it alone.
-/
namespace CellKernel
open CellCore CellFifo CellInterleaving CellPmm CellRuns CellTensor CellWeak ReleaseAcquire

variable {m : Machine}

abbrev KernelMemory := Memory Core Atomic Shared UInt64

/-- All atomics have one writer each: the queues have theirs, and only the AP
    stores to the flags. -/
structure MemoryInv (memory : KernelMemory) (queues : Queues m) (logs : Flag → Log Core Atomic) :
    Prop where
  queues : ∀ q, RingInv q.place memory (queues q)
  flags : ∀ f, Published memory (.flag f) .ap (logs f)

def ApPc.pastReducing : ApPc → Bool
  | .freeing _ | .completing _ | .finished | .panicked _ => true
  | _ => false

def ApPc.took : ApPc → Bool
  | .reducing _ | .freeing _ | .completing _ | .finished | .panicked _ => true
  | _ => false

/-- The newest message of a flag is its value, and whoever reads that the tensor
    is complete knows of the sum. -/
structure FlagInv (memory : KernelMemory) (seen stored : Bool) (d : DataWorld m)
    (logs : Flag → Log Core Atomic) : Prop where
  newest : ∀ f, (f = .tensorSumBits → stored = true) →
    ∃ e, (logs f)[(logs f).length - 1]? = some e ∧ e.2.value = d.flag f
  ready : ∀ e ∈ logs .apReady, e.2.value ≠ 0 → d.world.apReady = true
  complete : ∀ e ∈ logs .tensorComplete, e.2.value ≠ 0 → d.world.tensorComplete = true ∧
    ∃ s, (logs .tensorSumBits)[1]? = some s ∧ s.1 ≤ e.2.view.seen (.flag .tensorSumBits)
  sum : ∀ (n : Nat) e, (logs .tensorSumBits)[n + 1]? = some e → e.2.value = d.sumBits
  length : (logs .tensorSumBits).length = if stored then 2 else 1
  stored_past : stored = true → d.world.ap.pastReducing = true
  completing : ∀ returned, d.world.ap = .completing returned → stored = true
  seen_known : seen = true → d.world.tensorComplete = true ∧
    Observed memory .bsp (.flag .tensorSumBits) (logs .tensorSumBits) 1

/-- The calls under way are those of the program points. -/
structure CallInv (queues : Queues m) (polling : Bool) (w : World m) : Prop where
  pushing : ∀ q item, pushItem (queues q).pusher = some item → w.pushing q = some item
  popping : ∀ q, (queues q).popper ≠ .idle → w.popping polling q = true
  polled : polling = true → w.ap = .working ∧ w.apProcessed < m.batch.length

def ApPc.owed : ApPc → Nat
  | .returning _ _ => 1
  | _ => 0

def BspPc.offered {count : Nat} : BspPc count → Nat
  | .booting _ | .awaitingAp _ | .sending _ => 0
  | _ => 1

/-- What has been sent, answered and offered so far. -/
structure CountInv (queues : Queues m) (w : World m) : Prop where
  sent : (queues .interCore).accepted.length + w.unsent.length = m.batch.length
  answered : (queues .completion).accepted.length + w.ap.owed =
    (queues .interCore).returned.length
  offered : (queues .tensors).accepted.length ≤ w.bsp.offered
  took : w.ap.took = true → 0 < (queues .tensors).returned.length

/-- The frame allocator and the tensor are accessed by the BSP before it pushes
    the tensor, and by the AP after it has popped it. -/
structure AccessInv (memory : KernelMemory) (queues : Queues m) (w : World m) : Prop where
  accesses : ∀ c, (∀ q i, c ≠ .slot q i) → ∀ a ∈ memory.accesses c,
    (a.thread = .bsp ∧ a.epoch ≤ (memory.views .bsp).clock .bsp ∧
      ∀ (n : Nat) e, (queues .tensors).heads[n + 1]? = some e → a.epoch ≤ e.2.view.clock .bsp) ∨
    (a.thread = .ap ∧ a.epoch ≤ (memory.views .ap).clock .ap ∧ w.ap.took = true)

structure WeakKernelInv (k : WeakKernel m) (d : DataWorld m) (logs : Flag → Log Core Atomic) :
    Prop where
  memory : MemoryInv k.memory k.queues logs
  cores : k.cores = d.still
  items : ∀ q, d.world.items q = (k.queues q).held
  flags : FlagInv k.memory k.seen k.stored d logs
  calls : CallInv k.queues k.polling d.world
  counts : CountInv k.queues d.world
  accesses : AccessInv k.memory k.queues d.world

section
variable {memory next : KernelMemory} {queues : Queues m} {logs : Flag → Log Core Atomic}
  {d e : DataWorld m} {w v : World m} {seen stored polling : Bool} {f : Flag} {q : QueueName}

theorem memory_frame (inv : MemoryInv memory queues logs) {accessed : Option Shared}
    (framed : Frame memory next none accessed) (slots : ∀ q i, accessed ≠ some (.slot q i)) :
    MemoryInv next queues logs := by
  constructor
  · intro q
    exact ring_frame (inv.queues q) framed (by simp) (by simp) (slots q)
  · intro f
    exact framed.published _ _ _ (by simp) (inv.flags f)

theorem memory_stored (inv : MemoryInv memory queues logs)
    (framed : Frame memory next (some (.flag f)) none) {log : Log Core Atomic}
    (published : Published next (.flag f) .ap log) :
    MemoryInv next queues (Function.update logs f log) := by
  constructor
  · intro q
    exact ring_frame (inv.queues q) framed (by simp [QueueName.place])
      (by simp [QueueName.place]) (by simp)
  · intro g
    by_cases same : g = f
    · subst g
      rw [Function.update_self]
      exact published
    · rw [Function.update_of_ne same]
      apply framed.published _ _ _ _ (inv.flags g)
      simpa using fun shared => same shared.symm

theorem memory_queue (inv : MemoryInv memory queues logs) {counter : Atomic}
    (own : counter = .head q ∨ counter = .tail q) {queue : Ring Core Atomic q.Item (q.cap m)}
    (ring : RingInv q.place next queue) (within : Within q.place counter memory next) :
    MemoryInv next (Function.update queues q queue) logs := by
  constructor
  · intro p
    by_cases same : p = q
    · subst p
      rw [Function.update_self]
      exact ring
    · rw [Function.update_of_ne same]
      apply within_other within (inv.queues p)
      · rcases own with rfl | rfl
        · simpa [QueueName.place] using fun shared => same shared.symm
        · simp [QueueName.place]
      · rcases own with rfl | rfl
        · simp [QueueName.place]
        · simpa [QueueName.place] using fun shared => same shared.symm
      · intro i j shared
        cases shared
        exact same rfl
  · intro f
    obtain ⟨stored, accessed, framed, only, _⟩ := within
    apply framed.published _ _ _ _ (inv.flags f)
    intro shared
    have place := only _ shared
    rcases own with rfl | rfl
    · cases place
    · cases place

/-- A step that changes neither the flags nor what is known of them. The sum may
    change as long as it has not been stored. -/
theorem flags_kept (inv : FlagInv memory seen stored d logs)
    (grows : memory.views .bsp ≤ next.views .bsp)
    (flags : ∀ f, f ≠ .tensorSumBits → e.flag f = d.flag f)
    (bits : stored = true → e.sumBits = d.sumBits)
    (ready : e.world.apReady = d.world.apReady)
    (complete : e.world.tensorComplete = d.world.tensorComplete)
    (past : d.world.ap.pastReducing = true → e.world.ap.pastReducing = true)
    (completing : ∀ returned, e.world.ap = .completing returned → stored = true) :
    FlagInv next seen stored e logs := by
  constructor
  · intro f known
    obtain ⟨last, there, value⟩ := inv.newest f known
    refine ⟨last, there, ?_⟩
    by_cases sum : f = .tensorSumBits
    · subst f
      exact value.trans (bits (known rfl)).symm
    · rw [flags f sum]
      exact value
  · rw [ready]
    exact inv.ready
  · rw [complete]
    exact inv.complete
  · intro n last there
    have inside := (List.getElem?_eq_some_iff.mp there).1
    have length := inv.length
    by_cases known : stored = true
    · rw [bits known]
      exact inv.sum n last there
    · rw [if_neg known] at length
      omega
  · exact inv.length
  · exact fun known => past (inv.stored_past known)
  · exact completing
  · intro known
    rw [complete]
    exact ⟨(inv.seen_known known).1, observed_grows (inv.seen_known known).2 grows⟩

theorem flags_stored (inv : FlagInv memory seen stored d logs)
    (grows : memory.views .bsp ≤ next.views .bsp) (other : f ≠ .tensorSumBits) {time : Nat}
    {view : View Core Atomic} (flags : ∀ g, g ≠ f → e.flag g = d.flag g)
    (ready : d.world.apReady = true ∨ f = .apReady → e.world.apReady = true)
    (complete : d.world.tensorComplete = true ∨ f = .tensorComplete →
      e.world.tensorComplete = true)
    (tells : f = .tensorComplete → ∃ s, (logs .tensorSumBits)[1]? = some s ∧
      s.1 ≤ view.seen (.flag .tensorSumBits))
    (past : stored = true → e.world.ap.pastReducing = true)
    (completing : ∀ returned, e.world.ap = .completing returned → stored = true) :
    FlagInv next seen stored e
      (Function.update logs f (logs f ++ [(time, ⟨e.flag f, view⟩)])) := by
  have sums : Function.update logs f (logs f ++ [(time, ⟨e.flag f, view⟩)]) .tensorSumBits =
      logs .tensorSumBits := Function.update_of_ne (fun same => other same.symm) ..
  have bits : e.sumBits = d.sumBits := flags .tensorSumBits fun same => other same.symm
  have member : ∀ g, ∀ x ∈ Function.update logs f (logs f ++ [(time, ⟨e.flag f, view⟩)]) g,
      x ∈ logs g ∨ f = g ∧ x.2.view = view := by
    intro g x inside
    by_cases same : g = f
    · subst g
      rw [Function.update_self, List.mem_append, List.mem_singleton] at inside
      exact inside.imp_right fun new => ⟨rfl, by rw [new]⟩
    · rw [Function.update_of_ne same] at inside
      exact Or.inl inside
  constructor
  · intro g known
    by_cases same : g = f
    · subst g
      rw [Function.update_self]
      exact ⟨(time, ⟨e.flag f, view⟩), by simp, rfl⟩
    · rw [Function.update_of_ne same, flags g same]
      exact inv.newest g known
  · intro x inside nonzero
    rcases member _ x inside with old | ⟨raised, _⟩
    · exact ready (Or.inl (inv.ready x old nonzero))
    · exact ready (Or.inr raised)
  · intro x inside nonzero
    rw [sums]
    rcases member _ x inside with old | ⟨raised, new⟩
    · obtain ⟨was, told⟩ := inv.complete x old nonzero
      exact ⟨complete (Or.inl was), told⟩
    · rw [new]
      exact ⟨complete (Or.inr raised), tells raised⟩
  · rw [sums, bits]
    exact inv.sum
  · rw [sums]
    exact inv.length
  · exact past
  · exact completing
  · intro known
    rw [sums]
    obtain ⟨was, observed⟩ := inv.seen_known known
    exact ⟨complete (Or.inl was), observed_grows observed grows⟩

theorem calls_kept (inv : CallInv queues polling w) {later : Bool}
    (pushing : ∀ q, w.pushing q = none ∨ v.pushing q = w.pushing q)
    (popping : ∀ q, w.popping polling q = false ∨ v.popping later q = w.popping polling q)
    (polled : later = true → v.ap = .working ∧ v.apProcessed < m.batch.length) :
    CallInv queues later v := by
  constructor
  · intro q item under
    have before := inv.pushing q item under
    rcases pushing q with none | same
    · rw [none] at before
      cases before
    · rw [same]
      exact before
  · intro q under
    have before := inv.popping q under
    rcases popping q with none | same
    · rw [none] at before
      cases before
    · rw [same]
      exact before
  · exact polled

theorem calls_queue (inv : CallInv queues polling w) {later : Bool}
    {queue : Ring Core Atomic q.Item (q.cap m)}
    (pusher : ∀ item, pushItem queue.pusher = some item → v.pushing q = some item)
    (popper : queue.popper ≠ .idle → v.popping later q = true)
    (pushing : ∀ p, p ≠ q → w.pushing p = none ∨ v.pushing p = w.pushing p)
    (popping : ∀ p, p ≠ q → w.popping polling p = false ∨
      v.popping later p = w.popping polling p)
    (polled : later = true → v.ap = .working ∧ v.apProcessed < m.batch.length) :
    CallInv (Function.update queues q queue) later v := by
  constructor
  · intro p item under
    by_cases same : p = q
    · subst p
      rw [Function.update_self] at under
      exact pusher item under
    · rw [Function.update_of_ne same] at under
      have before := inv.pushing p item under
      rcases pushing p same with none | kept
      · rw [none] at before
        cases before
      · rw [kept]
        exact before
  · intro p under
    by_cases same : p = q
    · subst p
      rw [Function.update_self] at under
      exact popper under
    · rw [Function.update_of_ne same] at under
      have before := inv.popping p under
      rcases popping p same with none | kept
      · rw [none] at before
        cases before
      · rw [kept]
        exact before
  · exact polled

theorem counts_kept (inv : CountInv queues w) (unsent : v.unsent = w.unsent)
    (owed : v.ap.owed = w.ap.owed) (offered : w.bsp.offered ≤ v.bsp.offered)
    (took : v.ap.took = true → w.ap.took = true) : CountInv queues v := by
  constructor
  · rw [unsent]
    exact inv.sent
  · rw [owed]
    exact inv.answered
  · exact inv.offered.trans offered
  · exact fun taken => inv.took (took taken)

theorem accesses_kept {later : Queues m} (inv : AccessInv memory queues w)
    (same : ∀ c, (∀ q i, c ≠ .slot q i) → next.accesses c = memory.accesses c)
    (grows : ∀ i, memory.views i ≤ next.views i)
    (heads : ∀ (n : Nat) e, (later .tensors).heads[n + 1]? = some e →
      (queues .tensors).heads[n + 1]? = some e ∨ e.2.view = next.views .bsp)
    (took : w.ap.took = true → v.ap.took = true) : AccessInv next later v := by
  constructor
  intro c outside a member
  rw [same c outside] at member
  rcases inv.accesses c outside a member with ⟨thread, known, told⟩ | ⟨thread, known, past⟩
  · left
    refine ⟨thread, known.trans ((grows .bsp).2 _), ?_⟩
    intro n e there
    rcases heads n e there with before | new
    · exact told n e before
    · rw [new]
      exact known.trans ((grows .bsp).2 _)
  · exact Or.inr ⟨thread, known.trans ((grows .ap).2 _), took past⟩

theorem in_range (memory_inv : MemoryInv memory queues logs) (counts : CountInv queues w)
    (q : QueueName) : (queues q).InRange := by
  have countable := m.countable
  have sent := counts.sent
  right
  cases q with
  | interCore => omega
  | completion =>
    have answered := counts.answered
    have behind := (ring_returned_accepted (memory_inv.queues .interCore)).length_le
    omega
  | tensors =>
    have offered := counts.offered
    have once : w.bsp.offered ≤ 1 := by
      unfold BspPc.offered
      split <;> omega
    omega

/-- The AP knows all that the BSP did before it pushed the tensor. -/
theorem accesses_ordered (memory_inv : MemoryInv memory queues logs) (counts : CountInv queues w)
    (inv : AccessInv memory queues w) (took : w.ap.took = true) {c : Shared}
    (outside : ∀ q i, c ≠ .slot q i) (writes : Bool) : ¬ memory.Races .ap c writes := by
  rintro ⟨a, member, _, late⟩
  rcases inv.accesses c outside a member with ⟨thread, _, told⟩ | ⟨thread, known, _⟩
  · have queue := memory_inv.queues .tensors
    obtain ⟨n, observed, upto, _⟩ := queue.more
    have popped := counts.took took
    obtain ⟨before, rfl⟩ : ∃ before, n = before + 1 := ⟨n - 1, by omega⟩
    have there := List.getElem?_eq_getElem (observed_inside observed)
    have view := observed_view queue.heads observed there
    have known := (told before _ there).trans (view.2 .bsp)
    rw [thread] at late
    exact absurd known (Nat.not_le_of_lt late)
  · rw [thread] at late
    omega

theorem accesses_own (inv : AccessInv memory queues w) (parked : w.ap = .parked) {c : Shared}
    (outside : ∀ q i, c ≠ .slot q i) (writes : Bool) : ¬ memory.Races .bsp c writes := by
  rintro ⟨a, member, _, late⟩
  rcases inv.accesses c outside a member with ⟨thread, known, _⟩ | ⟨_, _, took⟩
  · rw [thread] at late
    omega
  · rw [parked] at took
    cases took

theorem accesses_added (inv : AccessInv memory queues w) {core : Core} {c : Shared}
    (writes : Bool)
    (allowed : core = .bsp ∧ (queues .tensors).heads.length = 1 ∨
      core = .ap ∧ w.ap.took = true) : AccessInv (memory.access core c writes) queues w := by
  have framed := access_frame memory core c writes
  constructor
  intro other outside a member
  by_cases same : other = c
  · subst other
    rw [access_own] at member
    rcases List.mem_cons.mp member with rfl | before
    · rcases allowed with ⟨rfl, none⟩ | ⟨rfl, took⟩
      · left
        refine ⟨rfl, (access_clock ..).ge, ?_⟩
        intro n e there
        have inside := (List.getElem?_eq_some_iff.mp there).1
        omega
      · exact Or.inr ⟨rfl, (access_clock ..).ge, took⟩
    · rcases inv.accesses c outside a before with ⟨thread, known, told⟩ | ⟨thread, known, past⟩
      · exact Or.inl ⟨thread, known.trans ((framed.grows _).2 _), told⟩
      · exact Or.inr ⟨thread, known.trans ((framed.grows _).2 _), past⟩
  · rw [framed.accesses other (by simpa using fun shared => same shared.symm)] at member
    rcases inv.accesses other outside a member with ⟨thread, known, told⟩ | ⟨thread, known, past⟩
    · exact Or.inl ⟨thread, known.trans ((framed.grows _).2 _), told⟩
    · exact Or.inr ⟨thread, known.trans ((framed.grows _).2 _), past⟩

end

theorem weak_kernel_start (m : Machine) (bytes : Bytes) :
    WeakKernelInv (WeakKernel.start m bytes) (DataWorld.start m bytes)
      fun _ => [(0, ⟨0, ⊥⟩)] := by
  constructor
  · constructor
    · intro q
      exact ring_new _ q.place rfl rfl
    · intro f
      exact published_start (fun _ => 0) (Atomic.flag f) Core.ap
  · rfl
  · intro q
    cases q <;> rfl
  · constructor
    · intro f _
      refine ⟨_, rfl, ?_⟩
      cases f <;> rfl
    · intro e member nonzero
      rw [List.mem_singleton.mp member] at nonzero
      exact absurd rfl nonzero
    · intro e member nonzero
      rw [List.mem_singleton.mp member] at nonzero
      exact absurd rfl nonzero
    · intro n e there
      cases there
    · rfl
    · intro stored
      cases stored
    · intro returned completing
      cases completing
    · intro seen
      cases seen
  · constructor
    · intro q item under
      cases under
    · intro q under
      exact absurd rfl under
    · intro polling
      cases polling
  · constructor
    · exact Nat.zero_add _
    · rfl
    · exact Nat.le_refl _
    · intro took
      cases took
  · constructor
    intro c _ a member
    cases member

end CellKernel
