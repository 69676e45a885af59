import CellKernel.SerialOrder
import CellKernel.SpinLock

/-
serial_write over memory with release and acquire atomics. A failed
compare_exchange is a load, which may return an old value. SERIAL has no bytes,
so the holder of the lock accesses no memory; it accesses the ports of COM1, and
these accesses are recorded to say which of them the lock orders.
-/
namespace CellSerial
open CellRuns
open ReleaseAcquire (Memory LoadOrder StoreOrder Locked Guards)

variable {Core : Type} [DecidableEq Core]

/-- The orders of the accesses to SERIAL_LOCK that take it and that leave it. -/
structure LockOrders where
  taking : LoadOrder
  leaving : StoreOrder

/-- compare_exchange(false, true, Acquire, Relaxed) and store(false, Release) -/
def sourceOrders : LockOrders := ⟨.acquire, .release⟩

/-- The turn of the loop in write_byte: inb of the status and, if that shows the
    UART ready, outb of a byte. -/
def SerialPc.usesPort : SerialPc → Bool
  | .writingReturn _ _ _ => true
  | .writing _ _ _ => true
  | _ => false

/-- The lock is in memory, its only location; the only cell stands for COM1,
    which is no memory. The serialLock of the calls is no longer read: it records
    whether one of the cores has the lock. -/
structure WeakSerialWorld (Core : Type) where
  memory : Memory Core Unit Unit Bool
  calls : SerialWorld Core

/-- The time is the one of the message that is read or stored. -/
inductive WeakSerialAction (Core : Type) where
  | take (core : Core) (time : Nat)
  | refuse (core : Core) (time : Nat)
  | run (core : Core) (ready : Bool)
  | leave (core : Core) (time : Nat)

def WeakSerialWorld.start (messages : Core → List Message) : WeakSerialWorld Core :=
  ⟨Memory.start fun _ => false, SerialWorld.start messages⟩

def weakStep (orders : LockOrders) (w : WeakSerialWorld Core) :
    WeakSerialAction Core → Option (WeakSerialWorld Core)
  | .take core time =>
      match w.calls.pc core with
      | .acquiring message =>
          match w.memory.exchange core () time orders.taking .relaxed (fun _ => true) with
          | some (false, memory) => some ⟨memory, w.calls.acquire core message⟩
          | _ => none
      | _ => none
  | .refuse core time =>
      match w.calls.pc core with
      | .acquiring _ =>
          match w.memory.load core () time .relaxed with
          | some (true, memory) => some ⟨memory, w.calls⟩
          | _ => none
      | _ => none
  | .run core ready =>
      match w.calls.pc core with
      | .acquiring _ => none
      | .releasing => none
      | pc =>
          (step w.calls ⟨core, ready⟩).map fun calls =>
            ⟨if pc.usesPort then w.memory.access core () ready else w.memory, calls⟩
  | .leave core time =>
      match w.calls.pc core with
      | .releasing =>
          (w.memory.store core () time orders.leaving false).map fun memory =>
            ⟨memory, w.calls.release core⟩
      | _ => none

/-- Every access to COM1 so far happens before what the core does next. -/
def WeakSerialWorld.PortOrdered (w : WeakSerialWorld Core) (core : Core) : Prop :=
  ∀ a ∈ w.memory.accesses (), a.epoch ≤ (w.memory.views core).clock a.thread

instance (w : WeakSerialWorld Core) (core : Core) : Decidable (w.PortOrdered core) :=
  inferInstanceAs (Decidable (∀ a ∈ _, _))

inductive WeakSerialMove (orders : LockOrders) (w : WeakSerialWorld Core) :
    WeakSerialWorld Core → Prop where
  | taken (core : Core) (message : Message) (time : Nat) (memory : Memory Core Unit Unit Bool)
      (here : w.calls.pc core = .acquiring message)
      (ran : w.memory.exchange core () time orders.taking .relaxed (fun _ => true) =
        some (false, memory)) :
      WeakSerialMove orders w ⟨memory, w.calls.acquire core message⟩
  | refused (core : Core) (time : Nat) (memory : Memory Core Unit Unit Bool)
      (ran : w.memory.load core () time .relaxed = some (true, memory)) :
      WeakSerialMove orders w ⟨memory, w.calls⟩
  | moved (core : Core) (ready : Bool) (calls : SerialWorld Core)
      (notAcquiring : ∀ message, w.calls.pc core ≠ .acquiring message)
      (notReleasing : w.calls.pc core ≠ .releasing)
      (ran : step w.calls ⟨core, ready⟩ = some calls) : WeakSerialMove orders w ⟨w.memory, calls⟩
  | turned (core : Core) (ready : Bool) (calls : SerialWorld Core)
      (port : (w.calls.pc core).usesPort = true)
      (ran : step w.calls ⟨core, ready⟩ = some calls) :
      WeakSerialMove orders w ⟨w.memory.access core () ready, calls⟩
  | left (core : Core) (time : Nat) (memory : Memory Core Unit Unit Bool)
      (here : w.calls.pc core = .releasing)
      (ran : w.memory.store core () time orders.leaving false = some memory) :
      WeakSerialMove orders w ⟨memory, w.calls.release core⟩

theorem weak_serial_move {orders : LockOrders} {w v : WeakSerialWorld Core}
    {a : WeakSerialAction Core} (ran : weakStep orders w a = some v) :
    WeakSerialMove orders w v := by
  cases a with
  | take core time =>
    simp only [weakStep] at ran
    split at ran
    · rename_i message here
      split at ran
      · rename_i memory exchanged
        cases ran
        exact .taken core message time memory here exchanged
      · cases ran
    · cases ran
  | refuse core time =>
    simp only [weakStep] at ran
    split at ran
    · split at ran
      · rename_i memory loaded
        cases ran
        exact .refused core time memory loaded
      · cases ran
    · cases ran
  | run core ready =>
    simp only [weakStep] at ran
    split at ran
    · cases ran
    · cases ran
    · rename_i notAcquiring notReleasing
      obtain ⟨calls, stepped, rfl⟩ := Option.map_eq_some_iff.mp ran
      cases port : (w.calls.pc core).usesPort with
      | true => exact .turned core ready calls port stepped
      | false => exact .moved core ready calls notAcquiring notReleasing stepped
  | leave core time =>
    simp only [weakStep] at ran
    split at ran
    · rename_i here
      obtain ⟨memory, stored, rfl⟩ := Option.map_eq_some_iff.mp ran
      exact .left core time memory here stored
    · cases ran

theorem port_held {pc : SerialPc} (port : pc.usesPort = true) : pc.holding = true := by
  cases pc <;> first | rfl | cases port

/-- The lock in memory has the holder that the program points show, and leaving
    out the memory gives a run of the calls over a plain lock. -/
structure WeakSerialInv (orders : LockOrders) (messages : Core → List Message)
    (w : WeakSerialWorld Core) (time : Nat) (holder : Option Core) : Prop where
  locked : Locked w.memory () time holder
  holds : ∀ core, (w.calls.pc core).holding = true ↔ holder = some core
  plain : Reachable step (.start messages) w.calls
  guarded : orders = sourceOrders → Guards w.memory () () time holder

section
variable {orders : LockOrders} {messages : Core → List Message} {w : WeakSerialWorld Core}
  {time : Nat} {holder : Option Core} (inv : WeakSerialInv orders messages w time holder)
include inv

theorem plain_unlocked (free : holder = none) : w.calls.serialLock = false := by
  rw [← Bool.not_eq_true, (ordered_reachable inv.plain).locked]
  rintro ⟨core, held⟩
  rw [inv.holds, free] at held
  cases held

omit inv in
theorem run_holds {core c : Core} {ready : Bool} {calls : SerialWorld Core}
    (notAcquiring : ∀ message, w.calls.pc core ≠ .acquiring message)
    (notReleasing : w.calls.pc core ≠ .releasing)
    (ran : step w.calls ⟨core, ready⟩ = some calls) :
    (calls.pc c).holding = (w.calls.pc c).holding := by
  cases step_effect ran with
  | quiet next rest holds sends waits => exact moved_same SerialPc.holding w.calls holds c
  | acquire message here unlocked => exact absurd here (notAcquiring message)
  | send byte next held holds sends waits =>
    exact moved_same SerialPc.holding w.calls (holds.trans held.symm) c
  | release here => exact absurd here notReleasing

theorem take_inv {core : Core} {message : Message} {t : Nat}
    {memory : Memory Core Unit Unit Bool} (here : w.calls.pc core = .acquiring message)
    (ran : w.memory.exchange core () t orders.taking .relaxed (fun _ => true) =
      some (false, memory)) :
    WeakSerialInv orders messages ⟨memory, w.calls.acquire core message⟩ (t + 1) (some core) := by
  obtain ⟨free, _⟩ := ReleaseAcquire.take_newest inv.locked ran
  constructor
  · exact ReleaseAcquire.take_locked inv.locked ran
  · intro c
    have others : ∀ other, (w.calls.pc other).holding = false := by
      intro other
      rw [← Bool.not_eq_true, inv.holds, free]
      exact (Option.some_ne_none other).symm
    rw [acquire_pc]
    by_cases same : c = core
    · subst c
      rw [Function.update_self]
      exact iff_of_true rfl rfl
    · rw [Function.update_of_ne same, others c, Option.some.injEq]
      exact iff_of_false Bool.false_ne_true (Ne.symm same)
  · have ready : step w.calls ⟨core, true⟩ = some (w.calls.acquire core message) := by
      simp only [step, here, plain_unlocked inv free]
      rfl
    exact .next ⟨core, true⟩ inv.plain trivial ready
  · rintro rfl
    exact ReleaseAcquire.take_guards inv.locked (inv.guarded rfl) ran

theorem leave_inv {core : Core} {t : Nat} {memory : Memory Core Unit Unit Bool}
    (here : w.calls.pc core = .releasing)
    (ran : w.memory.store core () t orders.leaving false = some memory) :
    WeakSerialInv orders messages ⟨memory, w.calls.release core⟩ t none := by
  have held : holder = some core := by
    rw [← inv.holds, here]
    rfl
  have locked := inv.locked
  have guarded := inv.guarded
  rw [held] at locked guarded
  constructor
  · exact ReleaseAcquire.leave_locked locked ran
  · intro c
    rw [release_pc]
    by_cases same : c = core
    · subst c
      rw [Function.update_self]
      exact iff_of_false Bool.false_ne_true (Option.some_ne_none _).symm
    · rw [Function.update_of_ne same, inv.holds, held, Option.some.injEq]
      exact iff_of_false (Ne.symm same) (Option.some_ne_none _).symm
  · have released : step w.calls ⟨core, true⟩ = some (w.calls.release core) := by
      simp only [step, here]
    exact .next ⟨core, true⟩ inv.plain trivial released
  · rintro rfl
    exact ReleaseAcquire.leave_guards (guarded rfl) ran

theorem weak_serial_step {v : WeakSerialWorld Core} (move : WeakSerialMove orders w v) :
    ∃ time holder, WeakSerialInv orders messages v time holder := by
  cases move with
  | taken core message t memory here ran => exact ⟨_, _, take_inv inv here ran⟩
  | refused core t memory ran =>
    obtain ⟨same, accesses, grows⟩ := ReleaseAcquire.load_same ran
    exact ⟨time, holder, ReleaseAcquire.locked_same inv.locked (same ()) grows, inv.holds,
      inv.plain, fun source =>
        ReleaseAcquire.guards_same (inv.guarded source) (same ()) (accesses ()) grows⟩
  | moved core ready calls notAcquiring notReleasing ran =>
    refine ⟨time, holder, inv.locked, ?_, .next _ inv.plain trivial ran, inv.guarded⟩
    intro c
    rw [run_holds notAcquiring notReleasing ran]
    exact inv.holds c
  | turned core ready calls port ran =>
    have notAcquiring : ∀ message, w.calls.pc core ≠ .acquiring message := by
      intro message here
      rw [here] at port
      cases port
    have notReleasing : w.calls.pc core ≠ .releasing := by
      intro here
      rw [here] at port
      cases port
    have holds := (inv.holds core).mp (port_held port)
    refine ⟨time, holder, ReleaseAcquire.access_locked inv.locked ready, ?_,
      .next _ inv.plain trivial ran, ?_⟩
    · intro c
      rw [run_holds notAcquiring notReleasing ran]
      exact inv.holds c
    · intro source
      have guarded := inv.guarded source
      rw [holds] at guarded ⊢
      exact ReleaseAcquire.access_guards guarded ready
  | left core t memory here ran => exact ⟨_, _, leave_inv inv here ran⟩

end

theorem weak_serial_invariant {orders : LockOrders} {messages : Core → List Message}
    {w : WeakSerialWorld Core} (reached : Reachable (weakStep orders) (.start messages) w) :
    ∃ time holder, WeakSerialInv orders messages w time holder := by
  apply holds_throughout _ _ reached
  · refine ⟨0, none, ReleaseAcquire.locked_start _ rfl, ?_, .start,
      fun _ => ReleaseAcquire.guards_start _ 0 none⟩
    intro core
    exact iff_of_false Bool.false_ne_true (Option.some_ne_none _).symm
  · rintro w a v _ ⟨time, holder, inv⟩ _ ran
    exact weak_serial_step inv (weak_serial_move ran)

theorem weak_serial_excludes {orders : LockOrders} {messages : Core → List Message}
    {w : WeakSerialWorld Core} (reached : Reachable (weakStep orders) (.start messages) w)
    (a b : Core) (first : (w.calls.pc a).holding = true) (second : (w.calls.pc b).holding = true) :
    a = b := by
  obtain ⟨_, _, inv⟩ := weak_serial_invariant reached
  exact (ordered_reachable inv.plain).exclusive a b first second

theorem source_orders_port {messages : Core → List Message} {w : WeakSerialWorld Core}
    (reached : Reachable (weakStep sourceOrders) (.start messages) w) {core : Core}
    (held : (w.calls.pc core).holding = true) : w.PortOrdered core := by
  obtain ⟨time, holder, inv⟩ := weak_serial_invariant reached
  exact (inv.guarded rfl).held core ((inv.holds core).mp held)

/-- With the orders of the source, on any number of cores: the calls run as they
    do over a plain lock, so messages do not mix, and every access to COM1
    happens after all earlier ones. -/
theorem weak_serial_ordered {messages : Core → List Message} {w : WeakSerialWorld Core}
    (reached : Reachable (weakStep sourceOrders) (.start messages) w) :
    Reachable step (.start messages) w.calls ∧
      (∀ a b, (w.calls.pc a).holding = true → (w.calls.pc b).holding = true → a = b) ∧
      (∀ core, (w.calls.pc core).holding = true → w.PortOrdered core) ∧
      ((∀ core, (w.calls.pc core).holding = false) →
        w.calls.sent = encodeAll w.calls.acquired ∧
          decode w.calls.sent = textOf w.calls.acquired) := by
  obtain ⟨time, holder, inv⟩ := weak_serial_invariant reached
  refine ⟨inv.plain, weak_serial_excludes reached, ?_, ?_⟩
  · intro core held
    exact source_orders_port reached held
  · intro free
    have sent := (ordered_reachable inv.plain).finished free
    exact ⟨sent, by rw [sent, decode_all]⟩

/-- Each core has a line of one letter to write. -/
def letters (core : Bool) : List Message := if core then [[[66], [10]]] else [[[65, 10]]]

/-- The first core writes its line, with a turn for which the UART is not ready;
    then the second takes the lock, after one look at an old message. -/
def handOver : List (WeakSerialAction Bool) :=
  [.run false true, .take false 0, .run true true, .run false true, .run false true,
    .run false false, .run false true, .refuse true 1, .run false true, .run false true,
    .run false true, .run false true, .run false true, .leave false 2, .refuse true 1,
    .take true 2]

/-- The second core writes its line and leaves. -/
def handBack : List (WeakSerialAction Bool) :=
  List.replicate 10 (.run true true) ++ [.leave true 4]

theorem weak_serial_ordered_hand_over : ∃ w v : WeakSerialWorld Bool,
    Reachable (weakStep sourceOrders) (.start letters) w ∧ (w.calls.pc true).holding = true ∧
      w.calls.sent = [65, 13, 10] ∧ (w.memory.accesses ()).length = 4 ∧ w.PortOrdered true ∧
      Reachable (weakStep sourceOrders) (.start letters) v ∧
      v.calls.sent = [65, 13, 10, 66, 13, 10] ∧ decode v.calls.sent = [65, 10, 66, 10] := by
  have half : (run (weakStep sourceOrders) (fun _ _ => True) (.start letters) handOver).map
      (fun w => decide ((w.calls.pc true).holding = true ∧ w.calls.sent = [65, 13, 10] ∧
        (w.memory.accesses ()).length = 4)) = some true := by
    decide
  have whole : (run (weakStep sourceOrders) (fun _ _ => True) (.start letters)
      (handOver ++ handBack)).map (fun v => decide ((v.calls.pc false).holding = false ∧
        (v.calls.pc true).holding = false ∧ v.calls.sent = [65, 13, 10, 66, 13, 10] ∧
        textOf v.calls.acquired = [65, 10, 66, 10])) = some true := by
    decide
  obtain ⟨w, reached, shows⟩ := reaches_showing _ _ half
  obtain ⟨held, line, turns⟩ := of_decide_eq_true shows
  obtain ⟨v, ended, shows⟩ := reaches_showing _ _ whole
  obtain ⟨first, second, sent, texts⟩ := of_decide_eq_true shows
  have free : ∀ core, (v.calls.pc core).holding = false := by
    intro core
    cases core with
    | false => exact first
    | true => exact second
  have decoded := ((weak_serial_ordered ended).2.2.2 free).2
  rw [texts] at decoded
  exact ⟨w, v, reached, held, line, turns, (weak_serial_ordered reached).2.2.1 true held, ended,
    sent, decoded⟩

/-- On any number of cores the lock has one holder whatever the orders, and with
    those of the source every access to COM1 happens after all earlier ones. With
    any other orders a run of two cores loses this. -/
theorem lock_orders_needed (orders : LockOrders) :
    (∀ (Core : Type) [DecidableEq Core] (messages : Core → List Message)
      (w : WeakSerialWorld Core), Reachable (weakStep orders) (.start messages) w →
        ∀ a b, (w.calls.pc a).holding = true → (w.calls.pc b).holding = true → a = b) ∧
    (orders = sourceOrders → ∀ (Core : Type) [DecidableEq Core] (messages : Core → List Message)
      (w : WeakSerialWorld Core), Reachable (weakStep orders) (.start messages) w →
        ∀ core, (w.calls.pc core).holding = true → w.PortOrdered core) ∧
    (orders ≠ sourceOrders → ∃ (messages : Bool → List Message) (w : WeakSerialWorld Bool),
      Reachable (weakStep orders) (.start messages) w ∧
        ∃ core, (w.calls.pc core).holding = true ∧ ¬ w.PortOrdered core) := by
  refine ⟨?_, ?_, ?_⟩
  · intro Core _ messages w reached
    exact weak_serial_excludes reached
  · rintro rfl Core _ messages w reached core held
    exact source_orders_port reached held
  · intro other
    have lost : (run (weakStep orders) (fun _ _ => True) (.start letters) handOver).map
        (fun w => decide ((w.calls.pc true).holding = true ∧ ¬ w.PortOrdered true)) =
          some true := by
      obtain ⟨taking, leaving⟩ := orders
      cases taking with
      | relaxed => cases leaving <;> decide
      | acquire =>
        cases leaving with
        | relaxed => decide
        | release => exact absurd rfl other
    obtain ⟨w, reached, shows⟩ := reaches_showing _ _ lost
    obtain ⟨held, unordered⟩ := of_decide_eq_true shows
    exact ⟨letters, w, reached, true, held, unordered⟩

end CellSerial
