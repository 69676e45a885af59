import Mathlib.Logic.Function.Basic
import CellKernel.Runs
import CellKernel.SpscQueue

/-
Any number of push and pop calls on one queue, one atomic access per step.
Loads and stores are sequentially consistent. A call that fails the capacity
assertion panics and takes no step.
-/
namespace CellInterleaving
open CellRuns CellRing CellQueue
variable {Pusher Popper T : Type} {CAP : Nat}

/-- Where a push call is: head is the value its own load returned. -/
inductive PushPc (T : Type) where
  | idle
  | loaded (item : T) (head : UInt64)
  | admitted (item : T) (head : UInt64)
  | written (item : T) (head : UInt64)
  deriving DecidableEq

inductive PopPc (T : Type) where
  | idle
  | loaded (tail : UInt64)
  | admitted (tail : UInt64)
  | taken (item : T) (tail : UInt64)
  deriving DecidableEq

/-- The counter value the call has loaded. -/
def PushPc.head : PushPc T → Option UInt64
  | .idle => none
  | .loaded _ head | .admitted _ head | .written _ head => some head

def PushPc.pastWrite : PushPc T → Bool
  | .written _ _ => true
  | _ => false

def PopPc.tail : PopPc T → Option UInt64
  | .idle => none
  | .loaded tail | .admitted tail | .taken _ tail => some tail

def PopPc.pastRead : PopPc T → Bool
  | .taken _ _ => true
  | _ => false

/-- The queue, every caller's program point, and the history: accepted and
    returned are what push and pop returned, stored and fetched what was
    written to and read from slots, each in order. -/
structure World (Pusher Popper T : Type) (CAP : Nat) where
  queue : SpscQueue T CAP
  pusher : Pusher → PushPc T
  popper : Popper → PopPc T
  accepted : List T
  returned : List T
  stored : List T
  fetched : List T

inductive Action (Pusher Popper T : Type) where
  | pushLoad (p : Pusher) (item : T)
  | pushCheck (p : Pusher)
  | pushWrite (p : Pusher)
  | pushPublish (p : Pusher)
  | popLoad (c : Popper)
  | popCheck (c : Popper)
  | popRead (c : Popper) (garbage : T)
  | popRelease (c : Popper)
  deriving DecidableEq

def World.new : World Pusher Popper T CAP :=
  ⟨SpscQueue.new, fun _ => .idle, fun _ => .idle, [], [], [], []⟩

section
variable [DecidableEq Pusher] [DecidableEq Popper]

def World.movePusher (w : World Pusher Popper T CAP) (p : Pusher) (pc : PushPc T) :
    World Pusher Popper T CAP :=
  { w with pusher := Function.update w.pusher p pc }

def World.movePopper (w : World Pusher Popper T CAP) (c : Popper) (pc : PopPc T) :
    World Pusher Popper T CAP :=
  { w with popper := Function.update w.popper c pc }

omit [DecidableEq Popper] in
@[simp] theorem move_pusher_frame (w : World Pusher Popper T CAP) (p : Pusher) (pc : PushPc T) :
    (w.movePusher p pc).queue = w.queue ∧ (w.movePusher p pc).popper = w.popper ∧
      (w.movePusher p pc).accepted = w.accepted ∧ (w.movePusher p pc).returned = w.returned ∧
      (w.movePusher p pc).stored = w.stored ∧ (w.movePusher p pc).fetched = w.fetched :=
  ⟨rfl, rfl, rfl, rfl, rfl, rfl⟩

omit [DecidableEq Pusher] in
@[simp] theorem move_popper_frame (w : World Pusher Popper T CAP) (c : Popper) (pc : PopPc T) :
    (w.movePopper c pc).queue = w.queue ∧ (w.movePopper c pc).pusher = w.pusher ∧
      (w.movePopper c pc).accepted = w.accepted ∧ (w.movePopper c pc).returned = w.returned ∧
      (w.movePopper c pc).stored = w.stored ∧ (w.movePopper c pc).fetched = w.fetched :=
  ⟨rfl, rfl, rfl, rfl, rfl, rfl⟩

omit [DecidableEq Popper] in
@[simp] theorem move_pusher_self (w : World Pusher Popper T CAP) (p : Pusher) (pc : PushPc T) :
    (w.movePusher p pc).pusher p = pc := by simp [World.movePusher]

omit [DecidableEq Popper] in
@[simp] theorem move_pusher_other (w : World Pusher Popper T CAP) {p other : Pusher}
    (pc : PushPc T) (unequal : other ≠ p) :
    (w.movePusher p pc).pusher other = w.pusher other := by
  simp [World.movePusher, unequal]

omit [DecidableEq Pusher] in
@[simp] theorem move_popper_self (w : World Pusher Popper T CAP) (c : Popper) (pc : PopPc T) :
    (w.movePopper c pc).popper c = pc := by simp [World.movePopper]

omit [DecidableEq Pusher] in
@[simp] theorem move_popper_other (w : World Pusher Popper T CAP) {c other : Popper}
    (pc : PopPc T) (unequal : other ≠ c) :
    (w.movePopper c pc).popper other = w.popper other := by
  simp [World.movePopper, unequal]

/-- One atomic access. A slot without an unread value may hold any bits; the
    action names the ones a read of it returns. -/
def step (w : World Pusher Popper T CAP) :
    Action Pusher Popper T → Option (World Pusher Popper T CAP)
  | .pushLoad p item =>
      match w.pusher p with
      | .idle => if CAP = 0 then none else some (w.movePusher p (.loaded item w.queue.head))
      | _ => none
  | .pushCheck p =>
      match w.pusher p with
      | .loaded item head =>
          if countersFull CAP head w.queue.tail then some (w.movePusher p .idle)
          else some (w.movePusher p (.admitted item head))
      | _ => none
  | .pushWrite p =>
      match w.pusher p with
      | .admitted item head =>
          match writeSlot w.queue.buffer (slotIndex CAP head) item with
          | .error _ => none
          | .ok buffer => some { w.movePusher p (.written item head) with
              queue := { w.queue with buffer := buffer }, stored := w.stored ++ [item] }
      | _ => none
  | .pushPublish p =>
      match w.pusher p with
      | .written item head => some { w.movePusher p .idle with
          queue := { w.queue with head := head + 1 }, accepted := w.accepted ++ [item] }
      | _ => none
  | .popLoad c =>
      match w.popper c with
      | .idle => if CAP = 0 then none else some (w.movePopper c (.loaded w.queue.tail))
      | _ => none
  | .popCheck c =>
      match w.popper c with
      | .loaded tail =>
          if tail = w.queue.head then some (w.movePopper c .idle)
          else some (w.movePopper c (.admitted tail))
      | _ => none
  | .popRead c garbage =>
      match w.popper c with
      | .admitted tail =>
          match w.queue.buffer[slotIndex CAP tail]? with
          | none => none
          | some found => some { w.movePopper c (.taken (found.getD garbage) tail) with
              queue := { w.queue with
                buffer := w.queue.buffer.setIfInBounds (slotIndex CAP tail) none },
              fetched := w.fetched ++ [found.getD garbage] }
      | _ => none
  | .popRelease c =>
      match w.popper c with
      | .taken item tail => some { w.movePopper c .idle with
          queue := { w.queue with tail := tail + 1 }, returned := w.returned ++ [item] }
      | _ => none

section
variable {w v : World Pusher Popper T CAP} {p : Pusher} {c : Popper} {item garbage : T}

theorem push_load_cases (ran : step w (.pushLoad p item) = some v) :
    w.pusher p = .idle ∧ v = w.movePusher p (.loaded item w.queue.head) := by
  simp only [step] at ran
  split at ran
  · rename_i at_idle
    split at ran
    · simp at ran
    · exact ⟨at_idle, (Option.some.inj ran).symm⟩
  · simp at ran

theorem push_check_cases (ran : step w (.pushCheck p) = some v) :
    ∃ item head, w.pusher p = .loaded item head ∧
      ((countersFull CAP head w.queue.tail = true ∧ v = w.movePusher p .idle) ∨
        (countersFull CAP head w.queue.tail = false ∧
          v = w.movePusher p (.admitted item head))) := by
  simp only [step] at ran
  split at ran
  · rename_i item head at_loaded
    refine ⟨item, head, at_loaded, ?_⟩
    split at ran
    · rename_i full
      exact .inl ⟨full, (Option.some.inj ran).symm⟩
    · rename_i room
      exact .inr ⟨by simpa using room, (Option.some.inj ran).symm⟩
  · simp at ran

theorem push_write_cases (ran : step w (.pushWrite p) = some v) :
    ∃ item head, w.pusher p = .admitted item head ∧ slotIndex CAP head < CAP ∧
      v = { w.movePusher p (.written item head) with
        queue := { w.queue with
          buffer := w.queue.buffer.setIfInBounds (slotIndex CAP head) (some item) },
        stored := w.stored ++ [item] } := by
  simp only [step, writeSlot] at ran
  split at ran
  · rename_i item head at_admitted
    refine ⟨item, head, at_admitted, ?_⟩
    split at ran
    · simp at ran
    · rename_i buffer wrote
      split at wrote
      · rename_i inside
        simp only [Except.ok.injEq] at wrote
        subst buffer
        exact ⟨inside, (Option.some.inj ran).symm⟩
      · simp at wrote
  · simp at ran

theorem push_publish_cases (ran : step w (.pushPublish p) = some v) :
    ∃ item head, w.pusher p = .written item head ∧
      v = { w.movePusher p .idle with
        queue := { w.queue with head := head + 1 }, accepted := w.accepted ++ [item] } := by
  simp only [step] at ran
  split at ran
  · rename_i item head at_written
    exact ⟨item, head, at_written, (Option.some.inj ran).symm⟩
  · simp at ran

theorem pop_load_cases (ran : step w (.popLoad c) = some v) :
    w.popper c = .idle ∧ v = w.movePopper c (.loaded w.queue.tail) := by
  simp only [step] at ran
  split at ran
  · rename_i at_idle
    split at ran
    · simp at ran
    · exact ⟨at_idle, (Option.some.inj ran).symm⟩
  · simp at ran

theorem pop_check_cases (ran : step w (.popCheck c) = some v) :
    ∃ tail, w.popper c = .loaded tail ∧
      ((tail = w.queue.head ∧ v = w.movePopper c .idle) ∨
        (tail ≠ w.queue.head ∧ v = w.movePopper c (.admitted tail))) := by
  simp only [step] at ran
  split at ran
  · rename_i tail at_loaded
    refine ⟨tail, at_loaded, ?_⟩
    split at ran
    · rename_i empty
      exact .inl ⟨empty, (Option.some.inj ran).symm⟩
    · rename_i more
      exact .inr ⟨more, (Option.some.inj ran).symm⟩
  · simp at ran

theorem pop_read_cases (ran : step w (.popRead c garbage) = some v) :
    ∃ tail found, w.popper c = .admitted tail ∧
      w.queue.buffer[slotIndex CAP tail]? = some found ∧
      v = { w.movePopper c (.taken (found.getD garbage) tail) with
        queue := { w.queue with
          buffer := w.queue.buffer.setIfInBounds (slotIndex CAP tail) none },
        fetched := w.fetched ++ [found.getD garbage] } := by
  simp only [step] at ran
  split at ran
  · rename_i tail at_admitted
    split at ran
    · simp at ran
    · rename_i found read
      exact ⟨tail, found, at_admitted, read, (Option.some.inj ran).symm⟩
  · simp at ran

theorem pop_release_cases (ran : step w (.popRelease c) = some v) :
    ∃ item tail, w.popper c = .taken item tail ∧
      v = { w.movePopper c .idle with
        queue := { w.queue with tail := tail + 1 }, returned := w.returned ++ [item] } := by
  simp only [step] at ran
  split at ran
  · rename_i item tail at_taken
    exact ⟨item, tail, at_taken, (Option.some.inj ran).symm⟩
  · simp at ran

/-- A push that nothing interrupts is the sequential push. -/
theorem push_uninterrupted {r : SpscQueue T CAP} (at_idle : w.pusher p = .idle)
    (ran : w.queue.push item = .ok (.ok (), r)) :
    ∃ v, Reachable step w v ∧ v.queue = r ∧ v.pusher p = .idle ∧
      v.accepted = w.accepted ++ [item] := by
  obtain ⟨positive, room, inside, rfl⟩ := push_accepted_cases ran
  have steps : run step (fun _ _ => True) w
      [.pushLoad p item, .pushCheck p, .pushWrite p, .pushPublish p] =
        some { w.movePusher p .idle with
          queue := ⟨w.queue.buffer.setIfInBounds (slotIndex CAP w.queue.head) (some item),
            w.queue.head + 1, w.queue.tail⟩,
          accepted := w.accepted ++ [item], stored := w.stored ++ [item] } := by
    simp [run, step, writeSlot, World.movePusher, at_idle, positive, room, inside]
  exact ⟨_, reaches_of_run .start steps, rfl, by simp, rfl⟩

theorem pop_uninterrupted {r : SpscQueue T CAP} (at_idle : w.popper c = .idle)
    (ran : w.queue.pop = .ok (some item, r)) :
    ∃ v, Reachable step w v ∧ v.queue = r ∧ v.popper c = .idle ∧
      v.returned = w.returned ++ [item] := by
  obtain ⟨positive, more, held, rfl⟩ := pop_returned_cases ran
  have steps : run step (fun _ _ => True) w
      [.popLoad c, .popCheck c, .popRead c item, .popRelease c] =
        some { w.movePopper c .idle with
          queue := ⟨w.queue.buffer.setIfInBounds (slotIndex CAP w.queue.tail) none,
            w.queue.head, w.queue.tail + 1⟩,
          returned := w.returned ++ [item], fetched := w.fetched ++ [item] } := by
    simp [run, step, World.movePopper, at_idle, positive, more, held]
  exact ⟨_, reaches_of_run .start steps, rfl, by simp, rfl⟩

end
end

end CellInterleaving
